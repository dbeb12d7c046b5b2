import Mathlib.Data.List.Basic
import QueryMarkup.Document.Basic
import QueryMarkup.Proofs.OrderedMap

/-!
# Views of the filters

Filters are kept in the order in which they were given, repetitions included. One is looked up by
its name from the end of the list, the map by names is collected from its start. Both tell of each
name the value that it was given last, and the order of the map that of the first filters.
-/

namespace QueryMarkup

/-- The keys are the names, each once, in the order in which they first come. -/
structure ListsFirsts (keys names : List String) : Prop where
  distinct : keys.Nodup
  mem_iff : ∀ name, name ∈ keys ↔ name ∈ names
  ordered : keys.Pairwise fun a b => names.idxOf a < names.idxOf b

/-- Names that come further behind do not change the order of the first places. -/
theorem pairwise_idxOf_append {keys names : List String} (more : List String)
    (hmem : ∀ name ∈ keys, name ∈ names)
    (h : keys.Pairwise fun a b => names.idxOf a < names.idxOf b) :
    keys.Pairwise fun a b => (names ++ more).idxOf a < (names ++ more).idxOf b := by
  refine h.imp_of_mem fun ha hb hlt => ?_
  rwa [List.idxOf_append_of_mem (hmem _ ha), List.idxOf_append_of_mem (hmem _ hb)]

theorem pairwise_idxOf_eraseDups (names : List String) :
    names.eraseDups.Pairwise fun a b => names.idxOf a < names.idxOf b := by
  induction names using List.reverseRecOn with
  | nil => exact .nil
  | append_singleton names name ih =>
    have hmem : ∀ a ∈ names.eraseDups, a ∈ names := fun a ha => List.mem_eraseDups.1 ha
    have hold := pairwise_idxOf_append [name] hmem ih
    rw [List.eraseDups_append]
    by_cases hname : name ∈ names
    · have hnone : [name].removeAll names = [] := by simpa [List.removeAll] using hname
      rwa [hnone, List.eraseDups_nil, List.append_nil]
    · have hone : ([name].removeAll names).eraseDups = [name] := by
        simp [List.removeAll, hname, List.eraseDups_cons]
      rw [hone, List.pairwise_append]
      refine ⟨hold, List.pairwise_singleton _ _, fun a ha b hb => ?_⟩
      -- the new name comes behind all others
      obtain rfl := List.mem_singleton.1 hb
      rw [List.idxOf_append_of_mem (hmem a ha), List.idxOf_append_of_notMem hname]
      have hlt := List.idxOf_lt_length_of_mem (hmem a ha)
      omega

theorem OrderedMap.Collects.listsFirsts {α : Type} {pairs : List (String × α)} {m : OrderedMap α}
    (h : Collects pairs m) : ListsFirsts m.keys (pairs.map Prod.fst) where
  distinct := m.nodup_keys
  mem_iff name := by rw [h.keys, List.mem_eraseDups]
  ordered := by
    rw [h.keys]
    exact pairwise_idxOf_eraseDups _

/-- The last filter with this name has this value. -/
def IsLastValue (filters : List Filter) (name : String) (value : Value) : Prop :=
  ∃ before after, filters = before ++ ⟨name, value⟩ :: after ∧ ∀ f ∈ after, f.name ≠ name

namespace Header

theorem isSome_filter?_iff (h : Header) {name : String} :
    (h.filter? name).isSome = true ↔ ∃ f ∈ h.filters, f.name = name := by
  simp [filter?]

theorem filter?_eq_some_iff (h : Header) {name : String} {value : Value} :
    h.filter? name = some value ↔ IsLastValue h.filters name value := by
  rw [filter?, Option.map_eq_some_iff]
  constructor
  · rintro ⟨f, hf, rfl⟩
    obtain ⟨hname, passed, rest, hfilters, hpassed⟩ := List.find?_eq_some_iff_append.1 hf
    obtain rfl : f.name = name := by simpa using hname
    refine ⟨rest.reverse, passed.reverse, ?_, fun g hg => ?_⟩
    · simpa using congrArg List.reverse hfilters
    · simpa using hpassed g (List.mem_reverse.1 hg)
  · rintro ⟨before, after, hfilters, hafter⟩
    refine ⟨⟨name, value⟩, List.find?_eq_some_iff_append.2 ⟨by simp, after.reverse,
      before.reverse, by simp [hfilters], fun g hg => ?_⟩, rfl⟩
    simpa using hafter g (List.mem_reverse.1 hg)

theorem lookup_map_filters (filters : List Filter) (name : String) :
    (filters.map fun f => (f.name, f.value)).lookup name =
      (filters.find? fun f => f.name = name).map Filter.value := by
  induction filters with
  | nil => rfl
  | cons f filters ih =>
    rw [List.map_cons, OrderedMap.lookup_cons_if, ih, List.find?_cons]
    by_cases hf : f.name = name
    · simp [hf]
    · simp [hf, Ne.symm hf]

theorem collects_filterMap (h : Header) :
    h.filterMap.Collects (h.filters.map fun f => (f.name, f.value)) :=
  OrderedMap.collects_ofList _

theorem get?_filterMap (h : Header) (name : String) :
    h.filterMap.get? name = h.filter? name := by
  rw [h.collects_filterMap.get?, ← List.map_reverse, lookup_map_filters, filter?]

theorem listsFirsts_filterMap (h : Header) :
    ListsFirsts h.filterMap.keys (h.filters.map Filter.name) := by
  have hlists := h.collects_filterMap.listsFirsts
  rwa [List.map_map] at hlists

/-- The header with the entries of a map as its filters. -/
def withFilterMap (h : Header) (m : OrderedMap Value) : Header :=
  { h with filters := m.entries.map fun e => ⟨e.1, e.2⟩ }

theorem filterMap_withFilterMap (h : Header) (m : OrderedMap Value) :
    (h.withFilterMap m).filterMap = m := by
  have hentries : (h.withFilterMap m).filters.map (fun f => (f.name, f.value)) = m.entries := by
    rw [withFilterMap, List.map_map]
    exact List.map_id _
  have hcollects := (h.withFilterMap m).collects_filterMap
  rw [hentries, OrderedMap.collects_iff] at hcollects
  exact hcollects.trans (OrderedMap.collects_iff.1 m.collects_entries).symm

theorem filter?_withFilterMap (h k : Header) (name : String) :
    (k.withFilterMap h.filterMap).filter? name = h.filter? name := by
  rw [← get?_filterMap, filterMap_withFilterMap, get?_filterMap]

end Header

namespace Selection

/-- The selection with the entries of a map as its filters. -/
def withFilterMap (s : Selection) (m : OrderedMap Value) : Selection :=
  { s with toHeader := s.toHeader.withFilterMap m }

/-- A filter is found by its name exactly if there is one, with the value of the last one, and the
map by names has the same entry. The map lists the names in the order in which they first come. A
selection that has its entries as filters has the same map, and the same is found there. -/
theorem filter_views_agree (s : Selection) :
    (∀ name, (s.filter? name).isSome = true ↔ ∃ f ∈ s.filters, f.name = name) ∧
    (∀ name value, s.filter? name = some value ↔ IsLastValue s.filters name value) ∧
    (∀ name, s.filter? name = s.filterMap.get? name) ∧
    ListsFirsts s.filterMap.keys (s.filters.map Filter.name) ∧
    ∀ t : Selection,
      (∀ name, (t.withFilterMap s.filterMap).filter? name = s.filter? name) ∧
      (t.withFilterMap s.filterMap).filterMap = s.filterMap := by
  refine ⟨fun _ => s.isSome_filter?_iff, fun _ _ => s.filter?_eq_some_iff,
    fun name => (s.get?_filterMap name).symm, s.listsFirsts_filterMap, fun t => ⟨?_, ?_⟩⟩
  · exact s.filter?_withFilterMap t.toHeader
  · exact t.filterMap_withFilterMap s.filterMap

/-- A repeated filter keeps its place and takes the later value. -/
example :
    ((Selection.named "photos").withFilter "first" (.literal (.int 2))
      |>.withFilter "after" (.literal .null)
      |>.withFilter "first" (.literal (.int 5))).filterMap.entries =
      [("first", .literal (.int 5)), ("after", .literal .null)] := rfl

end Selection

end QueryMarkup
