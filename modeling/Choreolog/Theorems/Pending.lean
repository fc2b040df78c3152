import Choreolog.Network.PendingRequests

/-! # Pending-request bookkeeping

The two tables agree after every call. All removals go through `take`, so a call that returns items is a sequence of
them, and the items it returns and the live ones are those that were live before. -/

namespace Choreolog.Network
open Lib

/-- An item with the id and the index it was added under. -/
structure Waiter (τ : Type) where
  id : Nat
  index : Nat
  value : τ

namespace PendingRequests
variable {τ : Type} {s t : PendingRequests τ} {n : Nat} {e x : Waiter τ}

/-! ### Live items -/

/-- The live items, in order of their ids. -/
def live (s : PendingRequests τ) : List (Waiter τ) := s.items.entries.map fun e => ⟨e.1, e.2.index, e.2.value⟩

theorem mem_live : e ∈ s.live ↔ s.items.find? e.id = some ⟨e.index, e.value⟩ := by
  rw [← OrdMap.mem_entries, live, List.mem_map]
  constructor
  · rintro ⟨⟨id, item⟩, hmem, rfl⟩
    exact hmem
  · intro hmem
    exact ⟨_, hmem, rfl⟩

theorem eq_of_id (he : e ∈ s.live) (hx : x ∈ s.live) (hid : x.id = e.id) : x = e := by
  rw [mem_live] at he hx
  rw [hid, he, Option.some.injEq, Item.mk.injEq] at hx
  obtain ⟨id, index, value⟩ := x
  obtain ⟨rfl, rfl⟩ := hx
  cases hid
  rfl

theorem live_nodup (s : PendingRequests τ) : s.live.Nodup := by
  have hids : (s.live.map (·.id)).Nodup := by
    rw [live, List.map_map]
    exact s.items.keys_nodup
  exact hids.of_map

/-- The table by index has the live ids, each under its own index, and no empty groups. -/
structure Grouped (s : PendingRequests τ) : Prop where
  group : ∀ i id, id ∈ (s.group i).keys ↔ ∃ e ∈ s.live, e.id = id ∧ e.index = i
  filled : ∀ i ∈ s.byIndex.keys, (s.group i).keys ≠ []

theorem group_of_find {i : Nat} {g : OrdMap Nat Unit} (h : s.byIndex.find? i = some g) : s.group i = g := by
  rw [PendingRequests.group, h, Option.getD_some]

theorem mem_byIndex {i id : Nat} (h : id ∈ (s.group i).keys) : i ∈ s.byIndex.keys := by
  rw [OrdMap.mem_keys]
  cases hg : s.byIndex.find? i with
  | some g => rfl
  | none =>
    rw [PendingRequests.group, hg] at h
    cases h

theorem Grouped.covers (h : s.Grouped) (he : e ∈ s.live) : e.index ∈ s.byIndex.keys :=
  mem_byIndex ((h.group e.index e.id).mpr ⟨e, he, rfl, rfl⟩)

/-- The tables after `n` additions. -/
structure Sound (n : Nat) (s : PendingRequests τ) : Prop extends s.Grouped where
  next : s.next = (n + 1) % 2 ^ 64
  bound : ∀ e ∈ s.live, e.id ≤ n

/-! ### One call -/

theorem mem_live_add (absent : s.items.find? s.next = none) (index : Nat) (item : τ) :
    x ∈ (s.add index item).2.live ↔ x = ⟨s.next, index, item⟩ ∨ x ∈ s.live := by
  rw [mem_live, mem_live, add, OrdMap.find?_tryEmplace]
  obtain ⟨id, i, v⟩ := x
  by_cases hid : s.next = id
  · subst hid
    simp [absent, eq_comm]
  · simp [hid, Ne.symm hid]

theorem group_add (index : Nat) (item : τ) (i : Nat) :
    (s.add index item).2.group i = if index = i then (s.group index).insert s.next () else s.group i := by
  unfold PendingRequests.group
  rw [add, OrdMap.find?_insert]
  split <;> rfl

theorem Sound.add (h : s.Sound n) (few : n + 1 < 2 ^ 64) (index : Nat) (item : τ) :
    (s.add index item).2.Sound (n + 1) ∧ (s.add index item).2.live.Perm (⟨n + 1, index, item⟩ :: s.live) := by
  have hnext : s.next = n + 1 := h.next.trans (Nat.mod_eq_of_lt few)
  have hold : ∀ e ∈ s.live, e.id ≠ s.next := fun e he => by
    have := h.bound e he
    omega
  have habsent : s.items.find? s.next = none := by
    cases hitem : s.items.find? s.next with
    | none => rfl
    | some it => exact absurd rfl (hold ⟨s.next, it.index, it.value⟩ (mem_live.mpr hitem))
  have hlive := fun x => mem_live_add (x := x) habsent index item
  refine ⟨⟨⟨fun i id => ?_, fun i hi => ?_⟩, ?_, fun e he => ?_⟩, ?_⟩
  · simp only [hlive, group_add, or_and_right, exists_or, exists_eq_left, ← h.group]
    split
    · rename_i hi
      subst hi
      rw [OrdMap.keys, OrdMap.insert, OrdMap.mem_put_keys]
      simp [OrdMap.keys, eq_comm]
    · rename_i hi
      simp [hi]
  · rw [group_add]
    split
    · exact List.ne_nil_of_mem (OrdMap.mem_put_keys.mpr (.inl rfl))
    · rename_i hne
      refine h.filled i ?_
      rw [PendingRequests.add, OrdMap.mem_keys, OrdMap.find?_insert, if_neg hne] at hi
      exact OrdMap.mem_keys.mpr hi
  · rw [PendingRequests.add, hnext]
  · rcases (hlive e).mp he with rfl | he
    · exact hnext.le
    · exact (h.bound e he).trans (Nat.le_succ n)
  · have hfresh : (⟨n + 1, index, item⟩ : Waiter τ) ∉ s.live := fun hmem => hold _ hmem hnext.symm
    refine (List.perm_ext_iff_of_nodup (live_nodup _) (List.nodup_cons.mpr ⟨hfresh, live_nodup s⟩)).mpr fun x => ?_
    rw [hlive, List.mem_cons, hnext]

theorem take_live (he : e ∈ s.live) : (s.take e.id).1 = some e.value := by
  unfold take
  rw [mem_live.mp he]

theorem take_absent {id : Nat} (h : ∀ e ∈ s.live, e.id ≠ id) : s.take id = (none, s) := by
  unfold take
  cases hitem : s.items.find? id with
  | none => rfl
  | some it => exact absurd rfl (h ⟨id, it.index, it.value⟩ (mem_live.mpr hitem))

theorem mem_live_take (he : e ∈ s.live) : x ∈ (s.take e.id).2.live ↔ x ∈ s.live ∧ x ≠ e := by
  have hitems : (s.take e.id).2.items = s.items.erase e.id := by
    unfold take
    rw [mem_live.mp he]
  rw [mem_live, hitems, OrdMap.find?_erase, mem_live]
  by_cases hid : x.id = e.id
  · rw [if_pos hid, ← mem_live]
    exact iff_of_false nofun fun h => h.2 (eq_of_id he h.1 hid)
  · rw [if_neg hid]
    exact (and_iff_left fun hxe : x = e => hid (congrArg Waiter.id hxe)).symm

/-- A live item is taken out, and the others stay. -/
theorem take_perm (he : e ∈ s.live) : (e :: (s.take e.id).2.live).Perm s.live := by
  have hnot : e ∉ (s.take e.id).2.live := fun h => ((mem_live_take he).mp h).2 rfl
  refine (List.perm_ext_iff_of_nodup (List.nodup_cons.mpr ⟨hnot, live_nodup _⟩) (live_nodup s)).mpr fun x => ?_
  rw [List.mem_cons, mem_live_take he]
  by_cases hx : x = e
  · exact iff_of_true (.inl hx) (hx ▸ he)
  · simp [hx]

theorem group_take (he : e ∈ s.live) (i : Nat) :
    (s.take e.id).2.group i = if e.index = i then (s.group i).erase e.id else s.group i := by
  unfold take PendingRequests.group
  rw [mem_live.mp he]
  dsimp only
  split
  · rename_i hempty
    rw [OrdMap.find?_erase]
    by_cases hi : e.index = i
    · rw [if_pos hi.symm, if_pos hi, ← hi, Option.getD_none]
      exact OrdMap.ext (List.isEmpty_iff.mp hempty).symm
    · rw [if_neg (Ne.symm hi), if_neg hi]
  · rw [OrdMap.find?_insert]
    by_cases hi : e.index = i
    · rw [if_pos hi, if_pos hi, ← hi]
      rfl
    · rw [if_neg hi, if_neg hi]

theorem filled_take (h : s.Grouped) (he : e ∈ s.live) (i : Nat) (hi : i ∈ (s.take e.id).2.byIndex.keys) :
    ((s.take e.id).2.group i).keys ≠ [] := by
  have hgroup := group_take he i
  unfold take at hi hgroup ⊢
  rw [mem_live.mp he] at hi hgroup ⊢
  rw [OrdMap.mem_keys] at hi
  rw [hgroup]
  dsimp only at hi
  split at hi
  · rename_i hempty
    rw [OrdMap.find?_erase] at hi
    split at hi
    · cases hi
    · rename_i hne
      rw [if_neg (Ne.symm hne)]
      exact h.filled i (OrdMap.mem_keys.mpr hi)
  · rename_i hempty
    rw [OrdMap.find?_insert] at hi
    split
    · rename_i heq
      subst heq
      intro hnil
      exact hempty (List.isEmpty_iff.mpr (List.map_eq_nil_iff.mp hnil))
    · rename_i hne
      rw [if_neg hne] at hi
      exact h.filled i (OrdMap.mem_keys.mpr hi)

theorem Sound.take (h : s.Sound n) (he : e ∈ s.live) : (s.take e.id).2.Sound n := by
  refine ⟨⟨fun i id => ?_, filled_take h.toGrouped he⟩, ?_, fun x hx => h.bound x ((mem_live_take he).mp hx).1⟩
  · simp only [mem_live_take he, group_take he]
    split
    · rename_i hi
      have hne : (∃ x, (x ∈ s.live ∧ x ≠ e) ∧ x.id = id ∧ x.index = i) ↔ id ≠ e.id ∧ id ∈ (s.group i).keys := by
        rw [h.group]
        constructor
        · rintro ⟨x, ⟨hx, hxe⟩, rfl, hxi⟩
          exact ⟨fun hid => hxe (eq_of_id he hx hid), x, hx, rfl, hxi⟩
        · rintro ⟨hid, x, hx, rfl, hxi⟩
          exact ⟨x, ⟨hx, fun hxe => hid (hxe ▸ rfl)⟩, rfl, hxi⟩
      rw [hne, OrdMap.mem_keys, OrdMap.find?_erase, OrdMap.mem_keys]
      by_cases hid : id = e.id
      · simp [hid]
      · simp [hid]
    · rename_i hi
      rw [h.group]
      refine exists_congr fun x => ⟨fun hx => ⟨⟨hx.1, fun hxe => hi ?_⟩, hx.2⟩, fun hx => ⟨hx.1.1, hx.2⟩⟩
      rw [← hxe]
      exact hx.2.2
  · rw [← h.next]
    unfold PendingRequests.take
    split <;> rfl

/-! ### Calls that take several items -/

/-- The items are taken out one by one. -/
inductive Takes : PendingRequests τ → List (Waiter τ) → PendingRequests τ → Prop
  | none {s : PendingRequests τ} : Takes s [] s
  | take {s t : PendingRequests τ} {e : Waiter τ} {es : List (Waiter τ)} (live : e ∈ s.live)
      (rest : Takes (s.take e.id).2 es t) : Takes s (e :: es) t

namespace Takes
variable {es : List (Waiter τ)}

theorem sound (h : Takes s es t) (hs : s.Sound n) : t.Sound n := by
  induction h with
  | none => exact hs
  | take live rest ih => exact ih (hs.take live)

theorem perm (h : Takes s es t) : (es ++ t.live).Perm s.live := by
  induction h with
  | none => exact .refl _
  | take live rest ih => exact (ih.cons _).trans (take_perm live)

end Takes

theorem takeAll_takes (es : List (Waiter τ)) (distinct : es.Nodup) (live : ∀ e ∈ es, e ∈ s.live) :
    ∃ t, s.takeAll (es.map (·.id)) = (es.map (·.value), t) ∧ Takes s es t := by
  induction es generalizing s with
  | nil => exact ⟨s, rfl, .none⟩
  | cons e es ih =>
    rw [List.nodup_cons] at distinct
    have he := live e List.mem_cons_self
    obtain ⟨t, ht, htakes⟩ := ih (s := (s.take e.id).2) distinct.2 fun x hx =>
      (mem_live_take he).mpr ⟨live x (List.mem_cons_of_mem _ hx), fun hxe => distinct.1 (hxe ▸ hx)⟩
    refine ⟨t, ?_, .take he htakes⟩
    rw [List.map_cons, takeAll, ht, take_live he]
    rfl

theorem removeIf_takes (predicate : τ → Bool) : ∃ es t, s.removeIf predicate = (es.map (·.value), t) ∧ Takes s es t := by
  have hids : (s.items.entries.filter fun e => predicate e.2.value).map Prod.fst =
      (s.live.filter fun e => predicate e.value).map (·.id) := by
    rw [live, List.filter_map, List.map_map]
    rfl
  unfold removeIf
  rw [hids]
  obtain ⟨t, ht⟩ := takeAll_takes (s := s) (s.live.filter fun e => predicate e.value) ((live_nodup s).filter _)
    fun e he => (List.mem_filter.mp he).1
  exact ⟨_, t, ht⟩

/-- What `takeThrough` returns: the live items up to an index, by index and then by insertion. -/
structure Ready (s : PendingRequests τ) (commit : Nat) (ready : List (Waiter τ)) : Prop where
  ordered : ready.Pairwise fun a b => a.index < b.index ∨ a.index = b.index ∧ a.id < b.id
  exact : ∀ e, e ∈ ready ↔ e ∈ s.live ∧ e.index ≤ commit

/-- The item that the loop takes is before all others. -/
theorem first_earlier (h : s.Grouped) {i : Nat} {g : OrdMap Nat Unit} {groups : List (Nat × OrdMap Nat Unit)}
    {ids : List (Nat × Unit)} (hgroups : s.byIndex.entries = (i, g) :: groups) (hids : g.entries = (e.id, ()) :: ids)
    (he : e ∈ s.live) (hi : e.index = i) (hx : x ∈ s.live) (hne : x ≠ e) :
    e.index < x.index ∨ e.index = x.index ∧ e.id < x.id := by
  have hgroup : s.group i = g := group_of_find (OrdMap.mem_entries.mp (hgroups ▸ List.mem_cons_self))
  have hle := OrdMap.keys_first hgroups (h.covers hx)
  rcases hle.lt_or_eq with hlt | heq
  · exact .inl (hi ▸ hlt)
  · refine .inr ⟨hi.trans heq, lt_of_le_of_ne (OrdMap.keys_first hids ?_) fun hid => hne (eq_of_id he hx hid.symm)⟩
    rw [← hgroup, h.group]
    exact ⟨x, hx, rfl, heq.symm⟩

theorem takeThrough_takes (h : s.Sound n) (commit : Nat) :
    ∃ ready t, (∀ fuel > s.live.length, takeThrough commit fuel s = some (ready.map (·.value), t)) ∧
      Takes s ready t ∧ s.Ready commit ready := by
  induction hk : s.live.length using Nat.strong_induction_on generalizing s with
  | _ k ih =>
  have hstop : (∀ e ∈ s.live, commit < e.index) → s.Ready commit [] := fun hlater =>
    ⟨.nil, fun e => iff_of_false nofun fun he => (hlater e he.1).not_ge he.2⟩
  cases hgroups : s.byIndex.entries with
  | nil =>
    refine ⟨[], s, fun fuel hfuel => ?_, .none, hstop fun e he => ?_⟩
    · obtain ⟨fuel, rfl⟩ := Nat.exists_eq_add_of_lt hfuel
      simp only [takeThrough, hgroups, List.map_nil]
    · have hmem := h.covers he
      rw [OrdMap.keys, hgroups] at hmem
      cases hmem
  | cons group groups =>
    obtain ⟨i, g⟩ := group
    have hfind : s.byIndex.find? i = some g := OrdMap.mem_entries.mp (hgroups ▸ List.mem_cons_self)
    by_cases hi : i ≤ commit
    · -- The first id of the first group is taken, and the loop goes on with one item less.
      have hfilled := h.filled i (OrdMap.mem_keys.mpr (hfind ▸ rfl))
      rw [group_of_find hfind] at hfilled
      cases hids : g.entries with
      | nil => exact absurd (by rw [OrdMap.keys, hids]; rfl) hfilled
      | cons first ids =>
        obtain ⟨id, u⟩ := first
        have hid : id ∈ (s.group i).keys := by
          rw [group_of_find hfind, OrdMap.keys, hids]
          exact List.mem_cons_self
        obtain ⟨e, he, rfl, hei⟩ := (h.group i id).mp hid
        have hlength : (s.take e.id).2.live.length + 1 = k := hk ▸ (take_perm he).length_eq
        obtain ⟨ready, t, hrun, htakes, hready⟩ := ih _ (by omega) (h.take he) rfl
        refine ⟨e :: ready, t, fun fuel hfuel => ?_, .take he htakes, List.pairwise_cons.mpr ⟨fun x hx => ?_, hready.ordered⟩,
          fun x => ?_⟩
        · obtain ⟨fuel, rfl⟩ := Nat.exists_eq_succ_of_ne_zero (Nat.ne_zero_of_lt hfuel)
          simp only [takeThrough, hgroups, if_pos hi, hids, hrun fuel (by omega), take_live he]
          rfl
        · have hx := (mem_live_take he).mp ((hready.exact x).mp hx).1
          exact first_earlier h.toGrouped hgroups hids he hei hx.1 hx.2
        · rw [List.mem_cons, hready.exact, mem_live_take he]
          by_cases hx : x = e
          · exact iff_of_true (.inl hx) (hx ▸ ⟨he, hei ▸ hi⟩)
          · simp [hx]
    · refine ⟨[], s, fun fuel hfuel => ?_, .none, hstop fun e he => ?_⟩
      · obtain ⟨fuel, rfl⟩ := Nat.exists_eq_add_of_lt hfuel
        simp only [takeThrough, hgroups, if_neg hi, List.map_nil]
      · exact (not_le.mp hi).trans_le (OrdMap.keys_first hgroups (h.covers he))

/-! ### Runs -/

/-- The items that the calls add, after `n` others. Ids are given in order of insertion. -/
def addedAfter (n : Nat) : List (PendingCall τ) → List (Waiter τ)
  | [] => []
  | .add index item :: calls => ⟨n + 1, index, item⟩ :: addedAfter (n + 1) calls
  | _ :: calls => addedAfter n calls

theorem addedAfter_ids (n : Nat) (calls : List (PendingCall τ)) :
    ((addedAfter n calls).map (·.id)).Pairwise (· < ·) ∧ ∀ e ∈ addedAfter n calls, n < e.id := by
  fun_induction addedAfter n calls with
  | case1 n => exact ⟨.nil, nofun⟩
  | case2 n index item calls ih =>
    refine ⟨List.pairwise_cons.mpr ⟨List.forall_mem_map.mpr ih.2, ih.1⟩, fun e he => ?_⟩
    rcases List.mem_cons.mp he with rfl | he
    · exact Nat.lt_succ_self n
    · exact (Nat.lt_succ_self n).trans (ih.2 e he)
  | case3 n call calls other ih => exact ih

/-- A call that adds nothing takes out what it returns. -/
theorem perform_takes (h : s.Sound n) (call : PendingCall τ) (other : ∀ index item, call ≠ .add index item) :
    ∃ es t, (∀ fuel > s.live.length, s.perform fuel call = some (es.map (·.value), t)) ∧ Takes s es t := by
  cases call with
  | add index item => exact absurd rfl (other index item)
  | take id =>
    by_cases hlive : ∃ e ∈ s.live, e.id = id
    · obtain ⟨e, he, rfl⟩ := hlive
      refine ⟨[e], _, fun fuel _ => ?_, .take he .none⟩
      rw [perform, take_live he]
      rfl
    · refine ⟨[], s, fun fuel _ => ?_, .none⟩
      rw [perform, take_absent fun e he hid => hlive ⟨e, he, hid⟩]
      rfl
  | takeThrough commit =>
    obtain ⟨ready, t, hrun, htakes, -⟩ := takeThrough_takes h commit
    exact ⟨ready, t, hrun, htakes⟩
  | removeIf predicate =>
    obtain ⟨es, t, hrun, htakes⟩ := removeIf_takes (s := s) predicate
    exact ⟨es, t, fun fuel _ => congrArg some hrun, htakes⟩

theorem run_sound (h : s.Sound n) (calls : List (PendingCall τ)) (few : n + (addedAfter n calls).length < 2 ^ 64) :
    ∃ (gone : List (List (Waiter τ))) (t : PendingRequests τ) (m : Nat),
      (∀ fuel > s.live.length + calls.length, s.run fuel calls = some (gone.map (·.map (·.value)), t)) ∧
      t.Sound m ∧ (gone.flatten ++ t.live).Perm (s.live ++ addedAfter n calls) := by
  fun_induction addedAfter n calls generalizing s with
  | case1 n => exact ⟨[], s, n, fun fuel _ => rfl, h, (List.append_nil _).symm ▸ .refl _⟩
  | case2 n index item calls ih =>
    rw [List.length_cons] at few
    obtain ⟨hsound, hlive⟩ := h.add (by omega) index item
    obtain ⟨gone, t, m, hrun, ht, hperm⟩ := ih hsound (by omega)
    refine ⟨[] :: gone, t, m, fun fuel hfuel => ?_, ht, ?_⟩
    · have hlength := hlive.length_eq
      rw [List.length_cons] at hfuel hlength
      simp only [run, perform, Option.bind_eq_bind, Option.bind_some, hrun fuel (by omega)]
      rfl
    · exact hperm.trans ((hlive.append_right _).trans List.perm_middle.symm)
  | case3 n call calls other ih =>
    obtain ⟨es, t, hperform, htakes⟩ := perform_takes h call fun index item heq => other index item heq
    obtain ⟨gone, u, m, hrun, hu, hperm⟩ := ih (htakes.sound h) few
    have hlive := htakes.perm
    refine ⟨es :: gone, u, m, fun fuel hfuel => ?_, hu, ?_⟩
    · have hlength := hlive.length_eq
      rw [List.length_append] at hlength
      rw [List.length_cons] at hfuel
      simp only [run, hperform fuel (by omega), Option.bind_eq_bind, Option.bind_some, hrun fuel (by omega)]
      rfl
    · rw [List.flatten_cons, List.append_assoc]
      refine (hperm.append_left es).trans ?_
      rw [← List.append_assoc]
      exact hlive.append_right _

theorem sound_empty : ({} : PendingRequests τ).Sound 0 :=
  ⟨⟨fun _ _ => iff_of_false nofun nofun, nofun⟩, rfl, nofun⟩

/-- After any calls, the live items and those that the calls returned are the ones added, each once. The table by index
    has the live ids, and `takeThrough` ends and returns what is ready, in order. -/
theorem pending_requests (calls : List (PendingCall τ)) (few : (addedAfter 0 calls).length < 2 ^ 64) :
    ((addedAfter 0 calls).map (·.id)).Pairwise (· < ·) ∧
    ∃ (gone : List (List (Waiter τ))) (s : PendingRequests τ),
      (∀ fuel > calls.length, run fuel {} calls = some (gone.map (·.map (·.value)), s)) ∧
      (gone.flatten ++ s.live).Perm (addedAfter 0 calls) ∧ s.Grouped ∧
      ∀ commit, ∃ ready t, (∀ fuel > s.live.length, takeThrough commit fuel s = some (ready.map (·.value), t)) ∧
        s.Ready commit ready ∧ (ready ++ t.live).Perm s.live := by
  refine ⟨(addedAfter_ids 0 calls).1, ?_⟩
  obtain ⟨gone, s, m, hrun, hsound, hperm⟩ := run_sound sound_empty calls (by omega)
  refine ⟨gone, s, fun fuel hfuel => hrun fuel ?_, hperm, hsound.toGrouped, fun commit => ?_⟩
  · exact (Nat.zero_add _).trans_lt hfuel
  · obtain ⟨ready, t, hready, htakes, hexact⟩ := takeThrough_takes hsound commit
    exact ⟨ready, t, hready, hexact, htakes.perm⟩

theorem pending_requests_committed : let calls : List (PendingCall String) :=
      [.add 5 "late", .add 3 "early", .takeThrough 4, .add 5 "later", .removeIf (· == "late")]
    (addedAfter 0 calls).length < 2 ^ 64 ∧ ∃ (gone : List (List (Waiter String))) (s : PendingRequests String),
      run 6 {} calls = some (gone.map (·.map (·.value)), s) ∧ (gone.flatten ++ s.live).Perm (addedAfter 0 calls) ∧ s.Grouped := by
  intro calls
  have hfew : (addedAfter 0 calls).length < 2 ^ 64 := by decide
  obtain ⟨-, gone, s, hrun, hperm, hgrouped, -⟩ := pending_requests calls hfew
  exact ⟨hfew, gone, s, hrun 6 (by decide), hperm, hgrouped⟩

end PendingRequests

end Choreolog.Network
