import QueryMarkup.Proofs.Interchange.Decoding.Document
import QueryMarkup.Proofs.Interchange.Position

/-!
# Fields and selections in JSON

What tells the objects of fields from those of selections in a document that is decoded, at any
depth, and which trees may stand in the place of filters. An object with properties other than null
is a selection; any other is a field, and has a name and at most keys for no filters and for null in
the place of properties.
-/

namespace QueryMarkup

open Interchange

namespace Interchange

theorem isFilters_nil_iff {j : Json} :
    IsFilters j [] ↔ j = .null ∨ j = .array [] ∨ j = .object [] := by
  constructor
  · intro h
    cases h with
    | null => exact .inl rfl
    | array hpairs =>
      cases hpairs
      exact .inr (.inl rfl)
    | object hentries =>
      cases hentries
      exact .inr (.inr rfl)
  · rintro (rfl | rfl | rfl)
    · exact .null
    · exact .array .nil
    · exact .object .nil

/-- A record without parameters and filters has a name, and maybe keys for filters and properties. -/
theorem IsHeader.filter_members {entries : List (JsonField × Json)}
    (hnodup : (entries.map Prod.fst).Nodup) {n : String} (h : IsHeader entries ⟨n, none, []⟩) :
    (JsonField.members entries).filter (fun e => e.1 ≠ "filters" ∧ e.1 ≠ "properties") =
      [("name", .string n)] := by
  have hmem : ∀ e, e ∈ (JsonField.members entries).filter
      (fun e => e.1 ≠ "filters" ∧ e.1 ≠ "properties") ↔ e ∈ [("name", Json.string n)] := by
    intro e
    simp only [List.mem_filter, List.mem_singleton, decide_eq_true_eq]
    constructor
    · rintro ⟨he, hfilters, hproperties⟩
      obtain ⟨⟨field, j⟩, hentry, rfl⟩ := List.mem_map.1 he
      have hlookup := (JsonField.lookup_eq_some_iff hnodup).2 hentry
      cases field with
      | name =>
        obtain rfl : Json.string n = j := Option.some.inj (h.name.symm.trans hlookup)
        rfl
      | params =>
        have hparams := h.params
        rw [hlookup] at hparams
        cases hparams
      | filters => exact (hfilters rfl).elim
      | properties => exact (hproperties rfl).elim
    · rintro rfl
      have hname := (JsonField.lookup_eq_some_iff hnodup).1 h.name
      exact ⟨JsonField.mem_members.2 hname, by simp⟩
  have hperm := (List.perm_ext_iff_of_nodup
    ((JsonField.nodup_members hnodup).of_map.filter _) (List.nodup_singleton _)).2 hmem
  exact List.perm_singleton.1 hperm

theorem IsProperty.shape {members : List (String × Json)} {p : Property}
    (h : IsProperty (.object members) p) :
    (∀ j, ("properties", j) ∈ members → ¬ j = .null →
      ∃ header properties, p = .selection header properties) ∧
    ((∀ j, ("properties", j) ∈ members → j = .null) → ∃ n, p = .field n ∧
      members.filter (fun e => e.1 ≠ "filters" ∧ e.1 ≠ "properties") = [("name", .string n)] ∧
      ∀ j, ("filters", j) ∈ members → j = .null ∨ j = .array [] ∨ j = .object []) := by
  cases h with
  | @field _ entries n hwritten hheader hnone =>
    cases hwritten with
    | object hnodup =>
      constructor
      · intro j hj hne
        have hlookup : entries.lookup .properties = some j :=
          (JsonField.lookup_eq_some_iff hnodup).2 (JsonField.mem_members.1 hj)
        rw [hlookup] at hnone
        exact (hne hnone).elim
      · intro _
        refine ⟨n, rfl, hheader.filter_members hnodup, fun j hj => ?_⟩
        have hlookup : entries.lookup .filters = some j :=
          (JsonField.lookup_eq_some_iff hnodup).2 (JsonField.mem_members.1 hj)
        have hfilters := hheader.filters
        rw [hlookup] at hfilters
        exact isFilters_nil_iff.1 hfilters
  | @selection _ entries header items ps hwritten hheader hitems hps =>
    cases hwritten with
    | object hnodup =>
      refine ⟨fun _ _ _ => ⟨_, _, rfl⟩, fun hnull => ?_⟩
      have hmem : (JsonField.properties, .array items) ∈ entries :=
        (JsonField.lookup_eq_some_iff hnodup).1 hitems
      cases hnull _ (JsonField.mem_members.2 hmem)

theorem IsProperty.filters {r : Json} {p : Property} (h : IsProperty r p) {j : Json}
    (hj : r.HasField .filters j) : ∃ filters, IsFilters j filters := by
  obtain ⟨entries, header, hwritten, hheader⟩ := h.exists_header
  have hfilters := hheader.filters
  rw [hwritten.lookup_eq_some_iff.2 hj] at hfilters
  exact ⟨_, hfilters⟩

end Interchange

namespace Document

/-- An object with properties other than null is a selection. Any other is a field, and but for keys
for no filters and for null properties it has a name alone. What stands in the place of filters lists
filters, in one of the three forms they have. -/
theorem shape_of_decode {delivery : Delivery} {room : Nat} {j : Json} {d : Document}
    (h : Decode.document delivery room j = .ok d) :
    (∀ path members, j.HasRecord path (.object members) → ∃ p, d.at? path = some p ∧
      (∀ k, ("properties", k) ∈ members → ¬ k = .null →
        ∃ header properties, p = .selection header properties) ∧
      ((∀ k, ("properties", k) ∈ members → k = .null) → ∃ n, p = .field n ∧
        members.filter (fun e => e.1 ≠ "filters" ∧ e.1 ≠ "properties") = [("name", .string n)] ∧
        ∀ k, ("filters", k) ∈ members → k = .null ∨ k = .array [] ∨ k = .object [])) ∧
    ∀ path r k, j.HasRecord path r → r.HasField .filters k → ∃ filters, IsFilters k filters := by
  have hd := (Decode.document_eq_ok_iff.1 h).2
  constructor
  · intro path members hr
    obtain ⟨p, hat, hp⟩ := (hd.agree path).property _ hr
    exact ⟨p, hat, hp.shape⟩
  · intro path r k hr hk
    obtain ⟨p, -, hp⟩ := (hd.agree path).property r hr
    exact hp.filters hk

theorem shape_of_decode_nested : ∃ j d,
    Decode.document .streamed Decode.maxOpen j = .ok d ∧
    (∀ path members, j.HasRecord path (.object members) → ∃ p, d.at? path = some p ∧
      (∀ k, ("properties", k) ∈ members → ¬ k = .null →
        ∃ header properties, p = .selection header properties) ∧
      ((∀ k, ("properties", k) ∈ members → k = .null) → ∃ n, p = .field n ∧
        members.filter (fun e => e.1 ≠ "filters" ∧ e.1 ≠ "properties") = [("name", .string n)] ∧
        ∀ k, ("filters", k) ∈ members → k = .null ∨ k = .array [] ∨ k = .object [])) ∧
    ∀ path r k, j.HasRecord path r → r.HasField .filters k → ∃ filters, IsFilters k filters := by
  let plain : Json := .object [("name", .string "c")]
  let field : Json := .object [("properties", .null), ("filters", .object []), ("name", .string "e")]
  let empty : Json := .object [("properties", .array []), ("name", .string "b")]
  let selection : Json := .object [("name", .string "a"),
    ("properties", .array [empty, plain, field]),
    ("filters", .array [.array [.string "f", .integer 1], .array [.string "f", .object []]])]
  let d : Document := ⟨[⟨⟨"a", none, [⟨"f", .literal (.int 1)⟩, ⟨"f", .mapping .empty⟩]⟩,
    [.selection ⟨"b", none, []⟩ [], .field "c", .field "e"]⟩]⟩
  have hd : Decode.document .streamed Decode.maxOpen (.array [selection]) = .ok d := rfl
  exact ⟨_, d, hd, shape_of_decode hd⟩

/-- The keys alone do not tell: a field may have null for properties, and a key for filters that
lists none; and null may stand in the place of filters. -/
theorem not_shape_by_keys :
    (¬ ∀ j d path members, Decode.deliver Decode.document .streamed j = .ok d →
      j.HasRecord path (.object members) → 1 < path.length →
      (∃ k, ("properties", k) ∈ members) →
      ∃ header properties, d.at? path = some (.selection header properties)) ∧
    (¬ ∀ j d path members, Decode.deliver Decode.document .streamed j = .ok d →
      j.HasRecord path (.object members) → 1 < path.length →
      (∀ k, ("properties", k) ∉ members) →
      ∃ n, members = [("name", .string n)] ∧ d.at? path = some (.field n)) ∧
    ¬ ∀ j d path r k, Decode.deliver Decode.document .streamed j = .ok d →
      j.HasRecord path r → r.HasField .filters k →
      (∃ pairs, k = .array pairs) ∨ ∃ entries, k = .object entries := by
  let d : Document := ⟨[⟨⟨"a", none, []⟩, [.field "b"]⟩]⟩
  let document (record : Json) : Json :=
    .array [.object [("name", .string "a"), ("properties", .array [record])]]
  have hrecord : ∀ record, Json.HasRecord (document record) [0, 0] record := by
    intro record
    have hfield : (JsonField.properties.key, Json.array [record]) ∈
        [("name", .string "a"), ("properties", .array [record])] := by simp [JsonField.key]
    exact .root rfl (.inside (.member hfield) rfl .here)
  refine ⟨fun h => ?_, fun h => ?_, fun h => ?_⟩
  · let members : List (String × Json) := [("name", .string "b"), ("properties", .null)]
    have hd : Decode.deliver Decode.document .streamed (document (.object members)) = .ok d :=
      rfl
    have hproperties : ∃ k, ("properties", k) ∈ members := ⟨.null, by simp [members]⟩
    obtain ⟨header, properties, hat⟩ :=
      h _ d [0, 0] members hd (hrecord _) (by decide) hproperties
    cases hat
  · let members : List (String × Json) := [("name", .string "b"), ("filters", .array [])]
    have hd : Decode.deliver Decode.document .streamed (document (.object members)) = .ok d :=
      rfl
    have hproperties : ∀ k, ("properties", k) ∉ members := by simp [members]
    obtain ⟨n, hmembers, -⟩ := h _ d [0, 0] members hd (hrecord _) (by decide) hproperties
    simp [members] at hmembers
  · let r : Json := .object [("name", .string "a"), ("filters", .null), ("properties", .array [])]
    have hd : Decode.deliver Decode.document .streamed (.array [r]) =
        .ok ⟨[⟨⟨"a", none, []⟩, []⟩]⟩ := rfl
    have hfilters : r.HasField .filters .null := .member (by simp [JsonField.key])
    rcases h _ _ [0] r .null hd (.root rfl .here) hfilters with ⟨pairs, hk⟩ | ⟨entries, hk⟩
    · cases hk
    · cases hk

end Document

end QueryMarkup
