import Mathlib.Data.List.Induction
import Mathlib.Data.List.Nodup
import Mathlib.Data.List.Perm.Subperm
import QueryMarkup.OrderedMap

/-!
# Maps from pairs

`Collects` says which map a list of pairs amounts to: its names in the order in which they first
came, each with the last value it was given. Inserting the pairs one by one gives that map and no
other is. Maps are equal that have the same names and equal values under each.
-/

namespace QueryMarkup.OrderedMap

variable {α : Type}

/-- The names keep the places they first had and take the values they last had. -/
structure Collects (pairs : List (String × α)) (m : OrderedMap α) : Prop where
  keys : m.keys = (pairs.map Prod.fst).eraseDups
  get? : ∀ key, m.get? key = pairs.reverse.lookup key

theorem lookup_cons_if (k key : String) (v : α) (rest : List (String × α)) :
    ((k, v) :: rest).lookup key = if key = k then some v else rest.lookup key := by
  rw [List.lookup_cons]
  by_cases h : key = k
  · simp [h]
  · rw [if_neg h, beq_false_of_ne h]

theorem lookup_exchangeIn (key other : String) (value : α) (entries : List (String × α)) :
    (exchangeIn key value entries).2.lookup other =
      if other = key then some value else entries.lookup other := by
  induction entries with
  | nil => exact lookup_cons_if ..
  | cons e rest ih =>
    obtain ⟨k, v⟩ := e
    by_cases hk : k = key
    · subst hk
      simp only [exchangeIn, if_true, lookup_cons_if]
      split <;> rfl
    · simp only [exchangeIn, hk, if_false, lookup_cons_if, ih]
      by_cases ho : other = k
      · have hne : ¬ other = key := fun e => hk (ho.symm.trans e)
        rw [if_pos ho, if_neg hne, if_pos ho]
      · rw [if_neg ho, if_neg ho]

theorem exchangeIn_of_not_mem {key : String} {value : α} {entries : List (String × α)}
    (h : key ∉ entries.map Prod.fst) :
    exchangeIn key value entries = (none, entries ++ [(key, value)]) := by
  induction entries with
  | nil => rfl
  | cons e rest ih =>
    obtain ⟨k, v⟩ := e
    simp only [List.map_cons, List.mem_cons, not_or] at h
    simp [exchangeIn, ih h.2, Ne.symm h.1]

theorem exchangeIn_fst (key : String) (value : α) (entries : List (String × α)) :
    (exchangeIn key value entries).1 = entries.lookup key := by
  induction entries with
  | nil => rfl
  | cons e rest ih =>
    obtain ⟨k, v⟩ := e
    rw [lookup_cons_if, exchangeIn]
    by_cases hk : k = key
    · rw [if_pos hk, if_pos hk.symm]
    · rw [if_neg hk, if_neg (Ne.symm hk)]
      exact ih

theorem exchange_eq (m : OrderedMap α) (key : String) (value : α) :
    m.exchange key value = (m.get? key, m.insert key value) :=
  congrArg (Prod.mk · _) (exchangeIn_fst key value m.entries)

theorem keys_insert (m : OrderedMap α) (key : String) (value : α) :
    (m.insert key value).keys = if key ∈ m.keys then m.keys else m.keys ++ [key] :=
  keys_exchangeIn key value m.entries

theorem get?_insert (m : OrderedMap α) (key other : String) (value : α) :
    (m.insert key value).get? other = if other = key then some value else m.get? other :=
  lookup_exchangeIn key other value m.entries

theorem ofList_append_singleton (pairs : List (String × α)) (p : String × α) :
    ofList (pairs ++ [p]) = (ofList pairs).insert p.1 p.2 := by
  simp [ofList]

theorem collects_ofList (pairs : List (String × α)) : Collects pairs (ofList pairs) := by
  induction pairs using List.reverseRecOn with
  | nil => exact ⟨rfl, fun _ => rfl⟩
  | append_singleton pairs p ih =>
    obtain ⟨k, v⟩ := p
    rw [ofList_append_singleton]
    constructor
    · have hm : k ∈ (ofList pairs).keys ↔ k ∈ pairs.map Prod.fst := by
        rw [ih.keys, List.mem_eraseDups]
      rw [keys_insert, List.map_append, List.eraseDups_append, ← ih.keys]
      by_cases hk : k ∈ pairs.map Prod.fst
      · have hr : [k].removeAll (pairs.map Prod.fst) = [] := by simpa [List.removeAll] using hk
        rw [if_pos (hm.2 hk)]
        simp [hr]
      · have hr : [k].removeAll (pairs.map Prod.fst) = [k] := by simpa [List.removeAll] using hk
        rw [if_neg (fun h => hk (hm.1 h))]
        simp [hr, List.eraseDups_cons]
    · intro key
      rw [get?_insert, ih.get?, List.reverse_append, List.reverse_singleton, List.singleton_append,
        lookup_cons_if]

theorem lookup_eq_none {key : String} {entries : List (String × α)}
    (h : key ∉ entries.map Prod.fst) : entries.lookup key = none := by
  rw [List.lookup_eq_none_iff]
  intro e he
  rw [bne_iff_ne]
  rintro rfl
  exact h (List.mem_map_of_mem he)

/-- Entries are determined by the names and what is found under them. -/
theorem entries_eq_of_lookup {s t : List (String × α)} (hk : s.map Prod.fst = t.map Prod.fst)
    (hd : (s.map Prod.fst).Nodup) (hl : ∀ key, s.lookup key = t.lookup key) : s = t := by
  induction s generalizing t with
  | nil =>
    cases t with
    | nil => rfl
    | cons _ _ => cases hk
  | cons e s ih =>
    cases t with
    | nil => cases hk
    | cons f t =>
      obtain ⟨k, v⟩ := e
      obtain ⟨j, w⟩ := f
      simp only [List.map_cons, List.cons.injEq] at hk
      obtain ⟨rfl, hk⟩ := hk
      rw [List.map_cons, List.nodup_cons] at hd
      have hv : v = w := by simpa [lookup_cons_if] using hl k
      refine hv ▸ congrArg ((k, v) :: ·) (ih hk hd.2 fun key => ?_)
      by_cases he : key = k
      · -- behind its first place the name does not come again
        subst he
        have hs : s.lookup key = none := lookup_eq_none hd.1
        have ht : t.lookup key = none := lookup_eq_none (hk ▸ hd.1)
        rw [hs, ht]
      · simpa [lookup_cons_if, he] using hl key

theorem ext_get? {m n : OrderedMap α} (hk : m.keys = n.keys)
    (hg : ∀ key, m.get? key = n.get? key) : m = n := by
  obtain ⟨s, hs⟩ := m
  obtain ⟨t, ht⟩ := n
  have he : s = t := entries_eq_of_lookup hk hs hg
  subst he
  rfl

theorem collects_iff {pairs : List (String × α)} {m : OrderedMap α} :
    Collects pairs m ↔ m = ofList pairs := by
  constructor
  · intro h
    have hc := collects_ofList pairs
    exact ext_get? (h.keys.trans hc.keys.symm) fun key => (h.get? key).trans (hc.get? key).symm
  · rintro rfl
    exact collects_ofList pairs

theorem entries_ofList {pairs : List (String × α)} (h : (pairs.map Prod.fst).Nodup) :
    (ofList pairs).entries = pairs := by
  induction pairs using List.reverseRecOn with
  | nil => rfl
  | append_singleton pairs p ih =>
    rw [List.map_append, List.map_singleton, List.nodup_append] at h
    have hp : (ofList pairs).entries = pairs := ih h.1
    have hn : p.1 ∉ pairs.map Prod.fst := fun hm => h.2.2 _ hm _ (List.mem_singleton_self _) rfl
    rw [ofList_append_singleton]
    simp [insert, exchange, hp, exchangeIn_of_not_mem hn]

theorem mem_of_mem_exchangeIn {key : String} {value : α} {entries : List (String × α)}
    {e : String × α} (h : e ∈ (exchangeIn key value entries).2) :
    e = (key, value) ∨ e ∈ entries := by
  induction entries with
  | nil => exact .inl (List.mem_singleton.1 h)
  | cons f rest ih =>
    obtain ⟨k, v⟩ := f
    by_cases hk : k = key
    · simp only [exchangeIn, hk, if_true, List.mem_cons] at h
      exact h.imp_right (List.mem_cons_of_mem _)
    · simp only [exchangeIn, hk, if_false, List.mem_cons] at h
      rcases h with rfl | h
      · exact .inr (List.mem_cons_self ..)
      · exact (ih h).imp_right (List.mem_cons_of_mem _)

/-- The entries of a map are among the pairs inserted. -/
theorem mem_of_mem_ofList {pairs : List (String × α)} {e : String × α}
    (h : e ∈ (ofList pairs).entries) : e ∈ pairs := by
  induction pairs using List.reverseRecOn with
  | nil => cases h
  | append_singleton pairs p ih =>
    rw [ofList_append_singleton] at h
    rcases mem_of_mem_exchangeIn h with rfl | h
    · exact List.mem_append_right _ (List.mem_singleton_self _)
    · exact List.mem_append_left _ (ih h)

/-- A map is what its own entries amount to. -/
theorem collects_entries (m : OrderedMap α) : Collects m.entries m := by
  have he : (ofList m.entries).entries = m.entries := entries_ofList m.nodup_keys
  obtain ⟨entries, hn⟩ := m
  have hm : (⟨entries, hn⟩ : OrderedMap α) = ofList entries := by
    generalize ofList entries = n at he
    cases n
    cases he
    rfl
  exact collects_iff.2 hm

theorem exchangeIn_map {β : Type} (f : α → β) (key : String) (value : α)
    (entries : List (String × α)) :
    (exchangeIn key (f value) (entries.map fun e => (e.1, f e.2))).2 =
      (exchangeIn key value entries).2.map fun e => (e.1, f e.2) := by
  induction entries with
  | nil => rfl
  | cons e rest ih =>
    by_cases hk : e.1 = key
    · simp [exchangeIn, hk]
    · simp [exchangeIn, hk, ih]

/-- Values may be changed before or after they are collected. -/
theorem entries_ofList_map {β : Type} (f : α → β) (pairs : List (String × α)) :
    (ofList (pairs.map fun e => (e.1, f e.2))).entries =
      (ofList pairs).entries.map fun e => (e.1, f e.2) := by
  induction pairs using List.reverseRecOn with
  | nil => rfl
  | append_singleton pairs p ih =>
    rw [List.map_append, List.map_singleton, ofList_append_singleton, ofList_append_singleton]
    simp only [insert, exchange, ih, exchangeIn_map]

theorem Collects.entries_ne_nil {pairs : List (String × α)} {m : OrderedMap α}
    (h : Collects pairs m) (hne : pairs ≠ []) : m.entries ≠ [] := by
  intro hm
  have hkeys : (pairs.map Prod.fst).eraseDups = [] := by
    rw [← h.keys, OrderedMap.keys, hm, List.map_nil]
  obtain ⟨p, rest, rfl⟩ := List.exists_cons_of_ne_nil hne
  rw [List.map_cons, List.eraseDups_cons] at hkeys
  cases hkeys

/-! ## Equality -/

theorem lookup_eq_some_iff {entries : List (String × α)} (h : (entries.map Prod.fst).Nodup)
    {key : String} {v : α} : entries.lookup key = some v ↔ (key, v) ∈ entries := by
  induction entries with
  | nil => simp
  | cons e rest ih =>
    obtain ⟨k, w⟩ := e
    rw [List.map_cons, List.nodup_cons] at h
    rw [lookup_cons_if, List.mem_cons, Prod.mk.injEq, ← ih h.2]
    by_cases hk : key = k
    · subst hk
      have hrest : rest.lookup key = none := lookup_eq_none h.1
      simp [hrest, eq_comm]
    · simp [hk]

theorem get?_eq_some_iff {m : OrderedMap α} {key : String} {v : α} :
    m.get? key = some v ↔ (key, v) ∈ m.entries := lookup_eq_some_iff m.nodup_keys

theorem mem_keys_iff {m : OrderedMap α} {key : String} :
    key ∈ m.keys ↔ ∃ v, m.get? key = some v := by
  simp only [keys, List.mem_map, get?_eq_some_iff]
  constructor
  · rintro ⟨⟨k, v⟩, he, rfl⟩
    exact ⟨v, he⟩
  · rintro ⟨v, he⟩
    exact ⟨(key, v), he, rfl⟩

theorem length_keys (m : OrderedMap α) : m.keys.length = m.size := List.length_map _

/-- Looking up the entries of the first map in the second one is enough: with as many names, which
are distinct on both sides, there are no others. -/
theorem equal_iff {same : α → α → Bool} {m n : OrderedMap α} :
    equal same m n = true ↔ (∀ key, key ∈ m.keys ↔ key ∈ n.keys) ∧
      ∀ key v w, m.get? key = some v → n.get? key = some w → same v w = true := by
  have hfound : equal same m n = true ↔ m.keys.length = n.keys.length ∧
      ∀ key v, m.get? key = some v → ∃ w, n.get? key = some w ∧ same v w = true := by
    rw [equal, Bool.and_eq_true, beq_iff_eq, List.all_eq_true, length_keys, length_keys,
      Prod.forall]
    refine and_congr_right fun _ => forall₂_congr fun key v => ?_
    rw [get?_eq_some_iff]
    refine imp_congr_right fun _ => ?_
    dsimp only
    cases n.get? key <;> simp
  rw [hfound]
  constructor
  · rintro ⟨hlength, hlook⟩
    have hsubset : m.keys ⊆ n.keys := fun key hkey => by
      obtain ⟨v, hv⟩ := mem_keys_iff.1 hkey
      obtain ⟨w, hw, -⟩ := hlook key v hv
      exact mem_keys_iff.2 ⟨w, hw⟩
    have hperm : m.keys.Perm n.keys :=
      (List.subperm_of_subset m.nodup_keys hsubset).perm_of_length_le (Nat.le_of_eq hlength.symm)
    refine ⟨fun key => hperm.mem_iff, fun key v w hv hw => ?_⟩
    obtain ⟨w', hw', hsame⟩ := hlook key v hv
    rwa [Option.some.inj (hw.symm.trans hw')]
  · rintro ⟨hkeys, hvalues⟩
    have hperm : m.keys.Perm n.keys :=
      (List.perm_ext_iff_of_nodup m.nodup_keys n.nodup_keys).2 hkeys
    refine ⟨hperm.length_eq, fun key v hv => ?_⟩
    obtain ⟨w, hw⟩ := mem_keys_iff.1 ((hkeys key).1 (mem_keys_iff.2 ⟨v, hv⟩))
    exact ⟨w, hw, hvalues key v w hv hw⟩

end QueryMarkup.OrderedMap
