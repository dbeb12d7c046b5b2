import QueryMarkup.Json.Encode
import QueryMarkup.Proofs.Interchange.Decoding.Document
import QueryMarkup.Proofs.Printing.Layout

/-!
# The JSON form is lossless

The tree a document is encoded as stands for that document, valid or not, if none of its literals is
a double without a text. As decoding follows the form, the tree is decoded as the same document
wherever there is room for its nesting.
-/

namespace QueryMarkup

open Interchange

namespace JsonField

/-- The fields in order, so far as they are given. -/
def ordered (given : JsonField → Option Json) : List (JsonField × Json) :=
  all.flatMap fun field => (given field).toList.map (field, ·)

variable (given : JsonField → Option Json)

theorem fst_ordered_sublist : ((ordered given).map Prod.fst).Sublist all := by
  have hfst : (ordered given).map Prod.fst = all.filter fun field => (given field).isSome := by
    unfold ordered all
    simp only [List.flatMap_cons, List.flatMap_nil, List.filter_cons]
    cases given .name <;> cases given .params <;> cases given .filters <;>
      cases given .properties <;> rfl
  rw [hfst]
  exact List.filter_sublist

theorem nodup_ordered : ((ordered given).map Prod.fst).Nodup :=
  (fst_ordered_sublist given).nodup (by decide)

theorem mem_ordered {field : JsonField} {j : Json} :
    (field, j) ∈ ordered given ↔ given field = some j := by
  have hall : field ∈ all := by cases field <;> decide
  constructor
  · intro h
    obtain ⟨_, -, h⟩ := List.mem_flatMap.1 h
    obtain ⟨_, hj, heq⟩ := List.mem_map.1 h
    cases heq
    exact Option.mem_toList.1 hj
  · intro h
    exact List.mem_flatMap.2 ⟨field, hall, List.mem_map_of_mem (Option.mem_toList.2 h)⟩

theorem lookup_ordered (field : JsonField) : (ordered given).lookup field = given field := by
  refine Option.ext fun j => ?_
  rw [lookup_eq_some_iff (nodup_ordered given), mem_ordered]

end JsonField

/-- Filters as a field, if there are any. -/
def Filter.listToJson? (filters : List Filter) : Option Json :=
  if filters.isEmpty then none else some (.array (filters.map Filter.toJson))

/-- What a header and properties give for the fields of a record. -/
def Header.given (h : Header) (properties : Option Json) : JsonField → Option Json
  | .name => some (.string h.name)
  | .params => h.params.map Value.toJson
  | .filters => Filter.listToJson? h.filters
  | .properties => properties

theorem Property.toJson_field (n : String) : (Property.field n).toJson =
    .object (JsonField.members (JsonField.ordered (Header.given ⟨n, none, []⟩ none))) := by
  rw [Property.toJson]
  rfl

theorem Property.toJson_selection (h : Header) (ps : List Property) :
    (Property.selection h ps).toJson = .object (JsonField.members
      (JsonField.ordered (h.given (some (.array (Property.listToJson ps)))))) := by
  obtain ⟨n, params, filters⟩ := h
  rw [Property.toJson]
  cases params <;> cases filters <;> rfl

theorem Property.listToJson_eq_map (ps : List Property) :
    Property.listToJson ps = ps.map Property.toJson := by
  induction ps with
  | nil => rw [Property.listToJson, List.map_nil]
  | cons p rest ih => rw [Property.listToJson, List.map_cons, ih]

/-! ## Encoded trees -/

theorem Literal.isLiteral_toJson {l : Literal} (h : l.IsWritable) : IsLiteral l.toJson l := by
  cases l with
  | null => exact .null
  | bool b => exact .bool
  | int i => exact .integer
  | float x =>
    have hx : x.isFinite = true := h x rfl
    rw [Literal.toJson, if_pos hx]
    exact .double hx
  | string s => exact .string

theorem Value.isValue_toJson {v : Value} (h : ∀ l ∈ v.literals, l.IsWritable) :
    IsValue v.toJson v := by
  cases v with
  | literal l => exact .literal (Literal.isLiteral_toJson (h l (List.mem_singleton_self l)))
  | mapping m =>
    refine .mapping ?_ (OrderedMap.collects_entries m)
    refine List.forall₂_map_left_iff.2 (List.forall₂_same.2 fun e he => ⟨rfl, ?_⟩)
    exact Literal.isLiteral_toJson (h e.2 (List.mem_map_of_mem he))

theorem Filter.isFilters_toJson {filters : List Filter}
    (h : ∀ f ∈ filters, ∀ l ∈ f.value.literals, l.IsWritable) :
    IsFilters ((Filter.listToJson? filters).getD .null) filters := by
  unfold Filter.listToJson?
  split
  · rename_i hempty
    rw [List.isEmpty_iff.1 hempty]
    exact .null
  · refine .array (List.forall₂_map_left_iff.2 (List.forall₂_same.2 fun f hf => ?_))
    exact .intro (Value.isValue_toJson (h f hf))

theorem Header.isHeader_ordered {h : Header} (hl : ∀ l ∈ h.literals, l.IsWritable)
    (properties : Option Json) : IsHeader (JsonField.ordered (h.given properties)) h := by
  constructor
  · rw [JsonField.lookup_ordered]
    rfl
  · rw [JsonField.lookup_ordered, Header.given]
    cases hp : h.params with
    | none => exact .none
    | some v =>
      refine .some (Value.isValue_toJson fun l hv => hl l (List.mem_append_left _ ?_))
      simpa [hp] using hv
  · rw [JsonField.lookup_ordered]
    refine Filter.isFilters_toJson fun f hf l hv => hl l (List.mem_append_right _ ?_)
    exact List.mem_flatMap.2 ⟨f, hf, hv⟩

mutual

theorem Property.isProperty_toJson :
    (p : Property) → (∀ l ∈ p.literals, l.IsWritable) → IsProperty p.toJson p
  | .field n, _ => by
    rw [Property.toJson_field]
    exact .field (.object (JsonField.nodup_ordered _))
      (Header.isHeader_ordered (fun l hm => by cases hm) none) rfl
  | .selection h ps, hl => by
    rw [Property.toJson_selection]
    refine .selection (.object (JsonField.nodup_ordered _))
      (Header.isHeader_ordered (fun l hm => hl l (List.mem_append_left _ hm)) _)
      (JsonField.lookup_ordered ..) ?_
    exact Property.isProperties_listToJson ps fun l hm => hl l (List.mem_append_right _ hm)

theorem Property.isProperties_listToJson :
    (ps : List Property) → (∀ l ∈ Property.listLiterals ps, l.IsWritable) →
      IsProperties (Property.listToJson ps) ps
  | [], _ => .nil
  | p :: rest, hl =>
    .cons (Property.isProperty_toJson p fun l hm => hl l (List.mem_append_left _ hm))
      (Property.isProperties_listToJson rest fun l hm => hl l (List.mem_append_right _ hm))

end

namespace Document

theorem isDocument_toJson {d : Document} (h : ∀ x, .float x ∈ d.literals → x.isFinite = true) :
    IsDocument d.toJson d := by
  refine .intro (List.forall₂_map_left_iff.2 (List.forall₂_same.2 fun s hs => ?_))
  exact Property.isProperty_toJson (.ofSelection s) fun l hl x hx =>
    h x (hx ▸ mem_literals.2 ⟨s, hs, hl⟩)

end Document

end QueryMarkup
