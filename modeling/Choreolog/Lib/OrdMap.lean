import Mathlib

/-! Ordered maps with unique keys, held as key-sorted association lists. Iteration follows the key
    order; lookups, updates of one value and maps over all values keep the keys. -/

namespace Lib

/-- A finite map whose entries are strictly sorted by key. -/
@[ext] structure OrdMap (κ ν : Type) [LT κ] where
  entries : List (κ × ν)
  sorted : (entries.map Prod.fst).Pairwise (· < ·)

namespace OrdMap

/-! ### Association lists -/

section Assoc
variable {κ ν : Type} [LinearOrder κ]

def lookup (k : κ) : List (κ × ν) → Option ν
  | [] => none
  | (k', v) :: rest => if k' = k then some v else lookup k rest

/-- Sets the value of a key, in key order. -/
def put (k : κ) (v : ν) : List (κ × ν) → List (κ × ν)
  | [] => [(k, v)]
  | (k', v') :: rest =>
    if k < k' then (k, v) :: (k', v') :: rest
    else if k' = k then (k, v) :: rest
    else (k', v') :: put k v rest

theorem mem_put_keys {k x : κ} {v : ν} : ∀ {l : List (κ × ν)},
    x ∈ (put k v l).map Prod.fst ↔ x = k ∨ x ∈ l.map Prod.fst
  | [] => by simp [put]
  | (k', v') :: rest => by
    have ih := mem_put_keys (k := k) (x := x) (v := v) (l := rest)
    unfold put
    split
    · simp
    · split
      · rename_i h
        simp [h]
      · simp only [List.map_cons, List.mem_cons, ih]
        tauto

theorem put_sorted {k : κ} {v : ν} : ∀ {l : List (κ × ν)}, (l.map Prod.fst).Pairwise (· < ·) →
    ((put k v l).map Prod.fst).Pairwise (· < ·)
  | [], _ => by simp [put]
  | (k', v') :: rest, h => by
    simp only [List.map_cons, List.pairwise_cons] at h
    unfold put
    split
    · rename_i hlt
      simp only [List.map_cons, List.pairwise_cons, List.mem_cons, forall_eq_or_imp]
      exact ⟨⟨hlt, fun x hx => lt_trans hlt (h.1 x hx)⟩, h⟩
    · split
      · rename_i heq
        subst heq
        simpa using h
      · rename_i hge hne
        simp only [List.map_cons, List.pairwise_cons]
        refine ⟨fun x hx => ?_, put_sorted h.2⟩
        rcases mem_put_keys.mp hx with rfl | hx
        · exact lt_of_le_of_ne (not_lt.mp hge) hne
        · exact h.1 x hx

theorem lookup_put (k x : κ) (v : ν) : ∀ l : List (κ × ν),
    lookup x (put k v l) = if k = x then some v else lookup x l
  | [] => by simp [put, lookup]
  | (k', v') :: rest => by
    have ih := lookup_put k x v rest
    unfold put
    split
    · simp [lookup]
    · split
      · rename_i heq
        subst heq
        by_cases hx : k' = x <;> simp [lookup, hx]
      · rename_i hne
        by_cases hk : k' = x
        · have : k ≠ x := fun h => hne (hk.trans h.symm)
          simp [lookup, hk, this]
        · simp [lookup, hk, ih]

theorem put_absent {k : κ} : ∀ {l : List (κ × ν)}, (l.map Prod.fst).Pairwise (· < ·) → lookup k l = none →
    ∃ front back, l = front ++ back ∧ (∀ v, put k v l = front ++ (k, v) :: back) ∧ (∀ e ∈ front, e.1 < k) ∧ ∀ e ∈ back, k < e.1
  | [], _, _ => ⟨[], [], rfl, fun _ => rfl, nofun, nofun⟩
  | (k', v') :: rest, h, habsent => by
    simp only [List.map_cons, List.pairwise_cons] at h
    unfold lookup at habsent
    split at habsent
    · cases habsent
    · rename_i hne
      by_cases hlt : k < k'
      · refine ⟨[], (k', v') :: rest, rfl, fun v => by simp [put, hlt], nofun, fun e he => ?_⟩
        rcases List.mem_cons.mp he with rfl | he
        · exact hlt
        · exact lt_trans hlt (h.1 e.1 (List.mem_map_of_mem he))
      · obtain ⟨front, back, hl, hput, hlow, hhigh⟩ := put_absent h.2 habsent
        refine ⟨(k', v') :: front, back, by rw [hl, List.cons_append], fun v => by simp [put, hlt, hne, hput],
          fun e he => ?_, hhigh⟩
        rcases List.mem_cons.mp he with rfl | he
        · exact lt_of_le_of_ne (not_lt.mp hlt) hne
        · exact hlow e he

theorem lookup_map (f : κ → ν → ν) (x : κ) : ∀ l : List (κ × ν),
    lookup x (l.map fun e => (e.1, f e.1 e.2)) = (lookup x l).map (f x)
  | [] => rfl
  | (k', v') :: rest => by
    by_cases hk : k' = x
    · subst hk
      simp [lookup]
    · simp [lookup, hk, lookup_map f x rest]

theorem lookup_isSome {x : κ} : ∀ {l : List (κ × ν)}, (lookup x l).isSome ↔ x ∈ l.map Prod.fst
  | [] => by simp [lookup]
  | (k', v') :: rest => by
    by_cases hk : k' = x
    · simp [lookup, hk]
    · simp [lookup, hk, lookup_isSome (l := rest), Ne.symm hk]

theorem lookup_of_mem {k : κ} {v : ν} : ∀ {l : List (κ × ν)}, (l.map Prod.fst).Pairwise (· < ·) → (k, v) ∈ l →
    lookup k l = some v
  | (k', v') :: rest, hs, hm => by
    simp only [List.map_cons, List.pairwise_cons] at hs
    rcases List.mem_cons.mp hm with h | h
    · cases h
      simp [lookup]
    · have hne : k' ≠ k := ne_of_lt (hs.1 k (List.mem_map.mpr ⟨_, h, rfl⟩))
      simp [lookup, hne, lookup_of_mem hs.2 h]

theorem mem_of_lookup {k : κ} {v : ν} : ∀ {l : List (κ × ν)}, lookup k l = some v → (k, v) ∈ l
  | (k', v') :: rest, h => by
    by_cases hk : k' = k
    · subst hk
      simp only [lookup, ↓reduceIte, Option.some.injEq] at h
      simp [h]
    · simp only [lookup, hk, ↓reduceIte] at h
      exact List.mem_cons_of_mem _ (mem_of_lookup h)

end Assoc

/-! ### Maps -/

section Ops
variable {κ ν : Type} [LinearOrder κ]

def empty : OrdMap κ ν := ⟨[], by simp⟩

instance : Inhabited (OrdMap κ ν) := ⟨empty⟩

instance [DecidableEq ν] : DecidableEq (OrdMap κ ν) := fun a b =>
  decidable_of_iff (a.entries = b.entries) OrdMap.ext_iff.symm

def keys (m : OrdMap κ ν) : List κ := m.entries.map Prod.fst

def find? (m : OrdMap κ ν) (k : κ) : Option ν := lookup k m.entries

def contains (m : OrdMap κ ν) (k : κ) : Bool := (m.find? k).isSome

/-- Sets the value of a key, whether or not it was there. -/
def insert (m : OrdMap κ ν) (k : κ) (v : ν) : OrdMap κ ν := ⟨put k v m.entries, put_sorted m.sorted⟩

/-- Sets the value of a key that is not there yet. -/
def tryEmplace (m : OrdMap κ ν) (k : κ) (v : ν) : OrdMap κ ν := if m.contains k then m else m.insert k v

def mapWithKey (f : κ → ν → ν) (m : OrdMap κ ν) : OrdMap κ ν :=
  ⟨m.entries.map fun e => (e.1, f e.1 e.2), by simpa [Function.comp_def] using m.sorted⟩

/-- Changes the value of a key that is there. -/
def update (m : OrdMap κ ν) (k : κ) (f : ν → ν) : OrdMap κ ν := m.mapWithKey fun k' v => if k' = k then f v else v

def filter (p : κ → ν → Bool) (m : OrdMap κ ν) : OrdMap κ ν :=
  ⟨m.entries.filter fun e => p e.1 e.2, m.sorted.sublist (List.filter_sublist.map _)⟩

def erase (m : OrdMap κ ν) (k : κ) : OrdMap κ ν := m.filter fun k' _ => k' ≠ k

/-- The entries of both maps; a key of both keeps its value in the first. -/
def merge (a b : OrdMap κ ν) : OrdMap κ ν := b.entries.foldl (fun m e => m.tryEmplace e.1 e.2) a

end Ops

section Lemmas
variable {κ ν : Type} [LinearOrder κ] {m : OrdMap κ ν} {k x : κ} {v : ν}

@[simp] theorem find?_empty : (empty : OrdMap κ ν).find? x = none := rfl

@[simp] theorem find?_insert : (m.insert k v).find? x = if k = x then some v else m.find? x := lookup_put k x v _

@[simp] theorem find?_mapWithKey {f : κ → ν → ν} : (m.mapWithKey f).find? x = (m.find? x).map (f x) :=
  lookup_map f x _

@[simp] theorem find?_update {f : ν → ν} :
    (m.update k f).find? x = if x = k then (m.find? x).map f else m.find? x := by
  unfold update
  rw [find?_mapWithKey]
  split
  · rfl
  · exact Option.map_id'

@[simp] theorem keys_mapWithKey {f : κ → ν → ν} : (m.mapWithKey f).keys = m.keys := by
  simp [keys, mapWithKey, Function.comp_def]

@[simp] theorem keys_update {f : ν → ν} : (m.update k f).keys = m.keys := keys_mapWithKey

theorem mem_keys : x ∈ m.keys ↔ (m.find? x).isSome := lookup_isSome.symm

theorem contains_iff : m.contains k = true ↔ k ∈ m.keys := mem_keys.symm

theorem mem_entries : (k, v) ∈ m.entries ↔ m.find? k = some v :=
  ⟨lookup_of_mem m.sorted, mem_of_lookup⟩

theorem mem_keys_tryEmplace : x ∈ (m.tryEmplace k v).keys ↔ x = k ∨ x ∈ m.keys := by
  unfold tryEmplace
  split
  · rename_i h
    rw [contains_iff] at h
    exact ⟨Or.inr, fun h' => h'.elim (fun e => e ▸ h) id⟩
  · exact mem_put_keys

theorem keys_nodup : m.keys.Nodup := m.sorted.imp ne_of_lt

theorem contains_eq : m.contains k = (m.find? k).isSome := rfl

@[simp] theorem find?_tryEmplace : (m.tryEmplace k v).find? x = (m.find? x).or (if k = x then some v else none) := by
  unfold tryEmplace
  by_cases hc : m.contains k
  · rw [if_pos hc]
    by_cases hk : k = x
    · subst hk
      obtain ⟨w, hw⟩ := Option.isSome_iff_exists.mp hc
      simp [hw]
    · simp [hk]
  · rw [if_neg hc, find?_insert]
    by_cases hk : k = x
    · subst hk
      have hnone : m.find? k = none := by simpa [contains_eq] using hc
      simp [hnone]
    · simp [hk]

theorem find?_filter {p : κ → ν → Bool} : (m.filter p).find? x = (m.find? x).filter (p x) := by
  refine Option.ext fun w => ?_
  rw [← mem_entries, Option.filter_eq_some_iff, ← mem_entries]
  exact List.mem_filter

@[simp] theorem find?_erase : (m.erase k).find? x = if x = k then none else m.find? x := by
  unfold erase
  rw [find?_filter]
  by_cases hx : x = k
  · simp [hx]
  · cases m.find? x <;> simp [hx]

theorem find?_merge {a b : OrdMap κ ν} : (a.merge b).find? x = (a.find? x).or (b.find? x) := by
  have key : ∀ (l : List (κ × ν)) (a : OrdMap κ ν),
      (l.foldl (fun m e => m.tryEmplace e.1 e.2) a).find? x = (a.find? x).or (lookup x l) := by
    intro l
    induction l with
    | nil => simp [lookup]
    | cons e l ih =>
      intro a
      rw [List.foldl_cons, ih, find?_tryEmplace, Option.or_assoc]
      congr 1
      by_cases he : e.1 = x
      · simp [lookup, he]
      · simp [lookup, he]
  exact key b.entries a

/-- The first key is the least one. -/
theorem keys_first {rest : List (κ × ν)} (h : m.entries = (k, v) :: rest) (hx : x ∈ m.keys) : k ≤ x := by
  have hsorted := m.sorted
  rw [keys, h, List.map_cons] at hx
  rw [h, List.map_cons, List.pairwise_cons] at hsorted
  rcases List.mem_cons.mp hx with rfl | hx
  · exact le_rfl
  · exact le_of_lt (hsorted.1 x hx)

/-- The entry of the largest key is the last one. -/
theorem entries_of_largest (found : m.find? k = some v) (largest : ∀ x ∈ m.keys, x ≤ k) :
    ∃ front, m.entries = front ++ [(k, v)] ∧ ∀ e ∈ front, e.1 < k := by
  obtain ⟨front, back, heq⟩ := List.append_of_mem (mem_entries.mpr found)
  have hsorted := m.sorted
  rw [heq, List.map_append, List.map_cons, List.pairwise_append, List.pairwise_cons] at hsorted
  obtain ⟨-, ⟨hback, -⟩, hfront⟩ := hsorted
  have hnil : back = [] := by
    refine List.eq_nil_iff_forall_not_mem.mpr fun e he => ?_
    have hmem : e.1 ∈ back.map Prod.fst := List.mem_map_of_mem he
    refine (hback e.1 hmem).not_ge (largest e.1 ?_)
    rw [keys, heq, List.map_append, List.map_cons]
    exact List.mem_append_right _ (List.mem_cons_of_mem _ hmem)
  refine ⟨front, by rw [heq, hnil], fun e he => ?_⟩
  exact hfront e.1 (List.mem_map_of_mem he) k List.mem_cons_self

/-- A new entry goes between the smaller and the larger keys. -/
theorem entries_insert_absent (absent : m.find? k = none) : ∃ front back, m.entries = front ++ back ∧
    (∀ v, (m.insert k v).entries = front ++ (k, v) :: back) ∧ (∀ e ∈ front, e.1 < k) ∧ ∀ e ∈ back, k < e.1 :=
  put_absent m.sorted absent

/-- A map is its lookups. -/
theorem ext_find? {a b : OrdMap κ ν} (h : ∀ x, a.find? x = b.find? x) : a = b := by
  have hmem : ∀ e, e ∈ a.entries ↔ e ∈ b.entries := fun e => by
    rw [mem_entries, mem_entries, h]
  have hlt : ∀ m : OrdMap κ ν, m.entries.Pairwise fun e f => e.1 < f.1 := fun m => List.pairwise_map.mp m.sorted
  have hnodup : ∀ m : OrdMap κ ν, m.entries.Nodup := fun m => (hlt m).imp fun hef he => ne_of_lt hef (congrArg Prod.fst he)
  have hperm := (List.perm_ext_iff_of_nodup (hnodup a) (hnodup b)).mpr hmem
  have hanti : ∀ e f, e ∈ a.entries → f ∈ b.entries → e.1 < f.1 → f.1 < e.1 → e = f := fun e f _ _ hef hfe =>
    absurd hfe (lt_asymm hef)
  exact OrdMap.ext (List.Perm.eq_of_pairwise hanti (hlt a) (hlt b) hperm)

theorem erase_absent {m : OrdMap κ ν} {k : κ} (absent : m.find? k = none) : m.erase k = m := by
  refine ext_find? fun x => ?_
  rw [find?_erase]
  split
  · rename_i hx
    rw [hx, absent]
  · rfl

/-- Inserting entries with distinct keys, one by one. -/
theorem find?_foldl_insert (l : List (κ × ν)) (distinct : (l.map Prod.fst).Nodup) (m : OrdMap κ ν) :
    (l.foldl (fun m e => m.insert e.1 e.2) m).find? x = (lookup x l).or (m.find? x) := by
  induction l generalizing m with
  | nil => rfl
  | cons e l ih =>
    rw [List.map_cons, List.nodup_cons] at distinct
    rw [List.foldl_cons, ih distinct.2, find?_insert]
    by_cases hx : e.1 = x
    · have hnone : lookup x l = none := by
        rw [← Option.not_isSome_iff_eq_none, lookup_isSome, ← hx]
        exact distinct.1
      simp [lookup, hx, hnone]
    · simp [lookup, hx]

theorem foldl_insert_perm {l : List (κ × ν)} {m : OrdMap κ ν} (h : l.Perm m.entries) :
    l.foldl (fun m e => m.insert e.1 e.2) empty = m := by
  have hnodup : (l.map Prod.fst).Nodup := (h.map Prod.fst).nodup_iff.mpr keys_nodup
  refine ext_find? fun x => ?_
  rw [find?_foldl_insert l hnodup, find?_empty, Option.or_none]
  refine Option.ext fun v => ⟨fun hv => ?_, fun hv => ?_⟩
  · exact mem_entries.mp (h.subset (mem_of_lookup hv))
  · have hmem := h.symm.subset (mem_entries.mpr hv)
    obtain ⟨w, hw⟩ := Option.isSome_iff_exists.mp (lookup_isSome.mpr (List.mem_map.mpr ⟨_, hmem, rfl⟩))
    rw [hw, ← Option.some.inj ((mem_entries.mp (h.subset (mem_of_lookup hw))).symm.trans hv)]

/-- The keys of a map, in order, are determined by which they are. -/
theorem keys_ext {ν' : Type} {a : OrdMap κ ν} {b : OrdMap κ ν'} (h : ∀ x, x ∈ a.keys ↔ x ∈ b.keys) : a.keys = b.keys := by
  have hperm := (List.perm_ext_iff_of_nodup keys_nodup keys_nodup).mpr h
  exact List.Perm.eq_of_pairwise (fun x y _ _ hxy hyx => absurd hyx (lt_asymm hxy)) a.sorted b.sorted hperm

end Lemmas

end OrdMap

end Lib
