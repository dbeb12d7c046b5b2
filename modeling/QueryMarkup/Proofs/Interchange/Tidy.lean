import QueryMarkup.Proofs.Interchange.Lossless
import QueryMarkup.Proofs.Interchange.Position

/-!
# Decoding drops nothing

What a tree loses by being decoded and encoded again is its spelling: the order of its keys, keys for
nothing, the shape of filters and the arguments that others of their name replace. Tidying a tree
does this and no more, and knows nothing of documents.
-/

namespace QueryMarkup

open Interchange

namespace Json

/-- The place of a key among the fields, behind all of them if it is none. -/
def fieldRank (key : String) : Nat := (JsonField.all.map JsonField.key).idxOf key

def inFieldOrder (members : List (String × Json)) : List (String × Json) :=
  members.mergeSort fun a b => fieldRank a.1 ≤ fieldRank b.1

/-- Of arguments with one name the last is kept, in the place of the first. -/
def tidyValue : Json → Json
  | .object members => .object (OrderedMap.ofList members).entries
  | j => j

def tidyPair : Json → Json
  | .array [name, j] => .array [name, j.tidyValue]
  | j => j

/-- An array, unless it is empty. -/
def listed : List Json → Option Json
  | [] => none
  | j :: rest => some (.array (j :: rest))

def tidyFilters : Json → Option Json
  | .null => none
  | .array pairs => listed (pairs.map tidyPair)
  | .object members => listed (members.map fun e => .array [.string e.1, e.2.tidyValue])
  | j => some j

mutual

def tidyRecord : Json → Json
  | .object members => .object (inFieldOrder (tidyMembers members))
  | j => j

def tidyMembers : List (String × Json) → List (String × Json)
  | [] => []
  | (key, j) :: rest =>
    match JsonField.ofKey? key with
    | none => (key, j) :: tidyMembers rest
    | some field => (tidyField field j).toList.map (key, ·) ++ tidyMembers rest

/-- What is left of the value of a field. -/
def tidyField (field : JsonField) (j : Json) : Option Json :=
  match field with
  | .name => some j
  | .params => some j.tidyValue
  | .filters => j.tidyFilters
  | .properties =>
    match j with
    | .null => none
    | .array items => some (.array (tidyRecords items))
    | j => some j

def tidyRecords : List Json → List Json
  | [] => []
  | j :: rest => j.tidyRecord :: tidyRecords rest

end

def tidyDocument : Json → Json
  | .array items => .array (tidyRecords items)
  | j => j

def isObject : Json → Bool
  | .object _ => true
  | _ => false

end Json

namespace Interchange

theorem map_eq_map {α β γ : Type} {f : α → γ} {g : β → γ} {as : List α} {bs : List β}
    (h : List.Forall₂ (fun a b => f a = g b) as bs) : as.map f = bs.map g := by
  rw [← List.forall₂_eq_eq_eq, List.forall₂_map_left_iff, List.forall₂_map_right_iff]
  exact h

theorem IsLiteral.toJson_eq {j : Json} {l : Literal} (h : IsLiteral j l) : l.toJson = j := by
  cases h with
  | double hx => exact if_pos hx
  | _ => rfl

theorem IsValue.toJson_eq {j : Json} {v : Value} (h : IsValue j v) : v.toJson = j.tidyValue := by
  cases h with
  | literal hl =>
    rw [Value.toJson, hl.toJson_eq]
    cases hl <;> rfl
  | @mapping members pairs m hpairs hm =>
    have hmembers : members = pairs.map fun e => (e.1, e.2.toJson) := by
      rw [← List.map_id members]
      exact map_eq_map (hpairs.imp fun e pair he => Prod.ext he.1 he.2.toJson_eq.symm)
    rw [OrderedMap.collects_iff.1 hm, hmembers, Json.tidyValue, OrderedMap.entries_ofList_map]
    rfl

theorem IsPair.toJson_eq {j : Json} {f : Filter} (h : IsPair j f) : f.toJson = j.tidyPair := by
  cases h with
  | intro hv => rw [Filter.toJson, hv.toJson_eq, Json.tidyPair]

theorem IsFilters.listToJson?_eq {j : Json} {filters : List Filter} (h : IsFilters j filters) :
    Filter.listToJson? filters = j.tidyFilters := by
  have hlisted : Filter.listToJson? filters = Json.listed (filters.map Filter.toJson) := by
    cases filters <;> rfl
  rw [hlisted]
  cases h with
  | null => rfl
  | array hpairs =>
    rw [Json.tidyFilters, map_eq_map (hpairs.imp fun _ _ hp => hp.toJson_eq.symm)]
  | object hentries =>
    rw [Json.tidyFilters, map_eq_map (hentries.imp fun e f he => ?_)]
    rw [Filter.toJson, he.2.toJson_eq, he.1]

end Interchange

/-! ## Fields and records -/

namespace JsonField

/-- What is left of fields. -/
def tidied (entries : List (JsonField × Json)) : List (JsonField × Json) :=
  entries.flatMap fun e => (Json.tidyField e.1 e.2).toList.map (e.1, ·)

variable {entries : List (JsonField × Json)}

theorem tidyMembers_members : Json.tidyMembers (members entries) = members (tidied entries) := by
  induction entries with
  | nil => rfl
  | cons e rest ih =>
    change Json.tidyMembers ((e.1.key, e.2) :: members rest) =
      members ((Json.tidyField e.1 e.2).toList.map (e.1, ·) ++ tidied rest)
    simp only [Json.tidyMembers, ofKey?_key, ih]
    simp [members]

theorem fst_tidied_sublist : ((tidied entries).map Prod.fst).Sublist (entries.map Prod.fst) := by
  induction entries with
  | nil => exact .slnil
  | cons e rest ih =>
    rw [tidied, List.flatMap_cons]
    cases Json.tidyField e.1 e.2 with
    | none => exact ih.cons _
    | some k => exact ih.cons_cons _

theorem mem_tidied {field : JsonField} {k : Json} :
    (field, k) ∈ tidied entries ↔ ∃ j, (field, j) ∈ entries ∧ Json.tidyField field j = some k := by
  constructor
  · intro h
    obtain ⟨⟨field', j⟩, hj, h⟩ := List.mem_flatMap.1 h
    obtain ⟨_, hk, heq⟩ := List.mem_map.1 h
    cases heq
    exact ⟨j, hj, Option.mem_toList.1 hk⟩
  · rintro ⟨j, hj, hk⟩
    exact List.mem_flatMap.2 ⟨_, hj, List.mem_map_of_mem (Option.mem_toList.2 hk)⟩

theorem lookup_tidied (h : (entries.map Prod.fst).Nodup) (field : JsonField) :
    (tidied entries).lookup field = (entries.lookup field).bind (Json.tidyField field) := by
  refine Option.ext fun k => ?_
  rw [lookup_eq_some_iff (fst_tidied_sublist.nodup h), mem_tidied, Option.bind_eq_some_iff]
  simp only [lookup_eq_some_iff h]

theorem fieldRank_injective {field field' : JsonField}
    (h : Json.fieldRank field.key = Json.fieldRank field'.key) : field = field' := by
  revert h
  cases field <;> cases field' <;> decide

theorem pairwise_members_ordered (given : JsonField → Option Json) :
    (members (ordered given)).Pairwise fun a b => Json.fieldRank a.1 ≤ Json.fieldRank b.1 := by
  have hall : all.Pairwise fun field field' =>
      Json.fieldRank field.key ≤ Json.fieldRank field'.key := by decide
  have hfields := hall.sublist (fst_ordered_sublist given)
  rw [List.pairwise_map] at hfields
  exact List.pairwise_map.2 hfields

/-- Both lists have the same members, and in both the ranks of the keys, which differ, go up. -/
theorem inFieldOrder_members (h : (entries.map Prod.fst).Nodup) :
    Json.inFieldOrder (members entries) = members (ordered fun field => entries.lookup field) := by
  have hmem : ∀ e, e ∈ entries ↔ e ∈ ordered fun field => entries.lookup field := by
    rintro ⟨field, j⟩
    rw [mem_ordered, lookup_eq_some_iff h]
  have hperm : entries.Perm (ordered fun field => entries.lookup field) :=
    (List.perm_ext_iff_of_nodup h.of_map (nodup_ordered _).of_map).2 hmem
  have hsorted : (Json.inFieldOrder (members entries)).Pairwise fun a b =>
      Json.fieldRank a.1 ≤ Json.fieldRank b.1 := by
    refine (List.pairwise_mergeSort ?_ ?_ (members entries)).imp of_decide_eq_true
    · intro a b c hab hbc
      simp only [decide_eq_true_eq] at hab hbc ⊢
      omega
    · intro a b
      simp only [Bool.or_eq_true, decide_eq_true_eq]
      omega
  refine List.Perm.eq_of_pairwise ?_ hsorted (pairwise_members_ordered _)
    ((List.mergeSort_perm _ _).trans (hperm.map _))
  intro a b ha hb hab hba
  obtain ⟨⟨field, j⟩, he, rfl⟩ := List.mem_map.1 ((List.mergeSort_perm _ _).mem_iff.1 ha)
  obtain ⟨⟨field', j'⟩, he', rfl⟩ := List.mem_map.1 hb
  obtain rfl : field = field' := fieldRank_injective (Nat.le_antisymm hab hba)
  have hj : some j = some j' := by
    rw [← (lookup_eq_some_iff h).2 he, ← (lookup_eq_some_iff h).2 ((hmem _).2 he')]
  rw [Option.some.inj hj]

end JsonField

namespace Interchange

/-- What is left of the fields of a record is what its header and properties give. -/
theorem inFieldOrder_tidyMembers {entries : List (JsonField × Json)}
    (h : (entries.map Prod.fst).Nodup) {header : Header} (hheader : IsHeader entries header)
    {properties : Option Json}
    (hproperties : (entries.lookup .properties).bind (Json.tidyField .properties) = properties) :
    Json.inFieldOrder (Json.tidyMembers (JsonField.members entries)) =
      JsonField.members (JsonField.ordered (header.given properties)) := by
  obtain ⟨hname, hparams, hfilters⟩ := hheader
  have hgiven : ∀ field, (JsonField.tidied entries).lookup field =
      header.given properties field := by
    intro field
    rw [JsonField.lookup_tidied h]
    cases field with
    | name => rw [hname, Option.bind_some, Json.tidyField, Header.given]
    | params =>
      generalize entries.lookup .params = o at hparams
      rw [Header.given]
      generalize header.params = params at hparams
      cases hparams with
      | none => rfl
      | some hv =>
        rw [Option.bind_some, Json.tidyField, Option.map_some, hv.toJson_eq]
    | filters =>
      rw [Header.given, hfilters.listToJson?_eq]
      cases entries.lookup .filters with
      | none => rfl
      | some j => rw [Option.bind_some, Json.tidyField, Option.getD_some]
    | properties => exact hproperties
  rw [JsonField.tidyMembers_members,
    JsonField.inFieldOrder_members (JsonField.fst_tidied_sublist.nodup h), funext hgiven]

mutual

theorem toJson_eq_tidyRecord : (p : Property) → ∀ {r}, IsProperty r p →
    (∀ path r', r.Leads path r' → r'.isObject = true) → p.toJson = r.tidyRecord
  | .field n, r, hr, hobjects => by
    have hobject := hobjects [] r .here
    cases hr with
    | @field _ entries _ hwritten hheader hnone =>
      cases hwritten with
      | array _ => cases hobject
      | object hnodup =>
        rw [Property.toJson_field, Json.tidyRecord, inFieldOrder_tidyMembers hnodup hheader]
        cases hproperties : entries.lookup .properties with
        | none => rfl
        | some j =>
          rw [hproperties, Option.getD_some] at hnone
          rw [hnone, Option.bind_some, Json.tidyField]
  | .selection header ps, r, hr, hobjects => by
    have hobject := hobjects [] r .here
    cases hr with
    | @selection _ entries _ items _ hwritten hheader hitems hps =>
      have hrecords : Property.listToJson ps = Json.tidyRecords items := by
        refine listToJson_eq_tidyRecords ps hps fun i r hi path r' hleads => ?_
        exact hobjects (i :: path) r' (.inside (hwritten.lookup_eq_some_iff.1 hitems) hi hleads)
      cases hwritten with
      | array _ => cases hobject
      | object hnodup =>
        rw [Property.toJson_selection, Json.tidyRecord, inFieldOrder_tidyMembers hnodup hheader]
        rw [hitems, Option.bind_some, Json.tidyField, hrecords]

theorem listToJson_eq_tidyRecords : (ps : List Property) → ∀ {items}, IsProperties items ps →
    (∀ (i : Nat) r, items[i]? = some r → ∀ path r', r.Leads path r' → r'.isObject = true) →
      Property.listToJson ps = Json.tidyRecords items
  | [], items, hps, hobjects => by
    cases hps
    rw [Property.listToJson, Json.tidyRecords]
  | p :: rest, items, hps, hobjects => by
    cases hps with
    | cons hp hrest =>
      rw [Property.listToJson, Json.tidyRecords, toJson_eq_tidyRecord p hp (hobjects 0 _ rfl),
        listToJson_eq_tidyRecords rest hrest fun i r hi => hobjects (i + 1) r hi]

end

theorem IsDocument.toJson_eq {j : Json} {d : Document} (h : IsDocument j d)
    (hobjects : ∀ path r, j.HasRecord path r → r.isObject = true) :
    d.toJson = j.tidyDocument := by
  cases h with
  | @intro items selections hs =>
    have hps : IsProperties items (selections.map Property.ofSelection) :=
      isProperties_iff.2 (List.forall₂_map_right_iff.2 hs)
    have hitems : Property.listToJson (selections.map Property.ofSelection) =
        Json.tidyRecords items := by
      refine listToJson_eq_tidyRecords _ hps fun i r hi path r' hleads => ?_
      exact hobjects (i :: path) r' (.root hi hleads)
    rw [Property.listToJson_eq_map, List.map_map] at hitems
    rw [Json.tidyDocument, ← hitems]
    rfl

/-- The keys of a record are known, and none comes twice. -/
theorem IsProperty.keys {members : List (String × Json)} {p : Property}
    (h : IsProperty (.object members) p) : (members.map Prod.fst).Nodup ∧
      ∀ e ∈ members, e.1 ∈ ["name", "params", "filters", "properties"] := by
  obtain ⟨entries, -, hwritten, -⟩ := h.exists_header
  cases hwritten with
  | object hnodup =>
    refine ⟨JsonField.nodup_members hnodup, fun e he => ?_⟩
    obtain ⟨⟨field, j⟩, -, rfl⟩ := List.mem_map.1 he
    show field.key ∈ _
    cases field <;> decide

end Interchange

namespace Document

/-- A tree of objects that is decoded as a document is that document's tree but for its spelling. Its
records have known keys, each once, and each is one property in the same position. -/
theorem toJson_of_decode {delivery : Delivery} {room : Nat} {j : Json} {d : Document}
    (hobjects : ∀ path r, j.HasRecord path r → r.isObject = true)
    (h : Decode.document delivery room j = .ok d) :
    d.toJson = j.tidyDocument ∧
    (∀ path members, j.HasRecord path (.object members) → (members.map Prod.fst).Nodup ∧
      ∀ e ∈ members, e.1 ∈ ["name", "params", "filters", "properties"]) ∧
    ∀ path,
      (∀ r, j.HasRecord path r → ∃ p, d.at? path = some p ∧ p.toJson = r.tidyRecord) ∧
      ∀ p, d.at? path = some p → ∃ r, j.HasRecord path r := by
  have hd := (Decode.document_eq_ok_iff.1 h).2
  refine ⟨hd.toJson_eq hobjects, fun path members hr => ?_, fun path => ⟨fun r hr => ?_, ?_⟩⟩
  · obtain ⟨p, -, hp⟩ := (hd.agree path).property _ hr
    exact hp.keys
  · obtain ⟨p, hat, hp⟩ := (hd.agree path).property r hr
    exact ⟨p, hat, toJson_eq_tidyRecord p hp fun path' r' hleads =>
      hobjects _ r' (hr.trans hleads)⟩
  · intro p hat
    obtain ⟨r, hr, -⟩ := (hd.agree path).record p hat
    exact ⟨r, hr⟩

theorem toJson_of_decode_untidy : ∃ j d,
    (∀ path r, Json.HasRecord j path r → r.isObject = true) ∧
    Decode.document .streamed Decode.maxOpen j = .ok d ∧
    d.toJson = j.tidyDocument ∧
    (∀ path members, j.HasRecord path (.object members) → (members.map Prod.fst).Nodup ∧
      ∀ e ∈ members, e.1 ∈ ["name", "params", "filters", "properties"]) ∧
    ∀ path,
      (∀ r, j.HasRecord path r → ∃ p, d.at? path = some p ∧ p.toJson = r.tidyRecord) ∧
      ∀ p, d.at? path = some p → ∃ r, j.HasRecord path r := by
  let field : Json := .object [("properties", .null), ("name", .string "b")]
  let selection : Json := .object [("properties", .array [field]),
    ("filters", .object [("f", .object [("x", .integer 1), ("y", .null), ("x", .bool true)])]),
    ("name", .string "a")]
  let arguments : ArgMap := ⟨[("x", .bool true), ("y", .null)], by decide⟩
  let d : Document := ⟨[⟨⟨"a", none, [⟨"f", .mapping arguments⟩]⟩, [.field "b"]⟩]⟩
  have hfield : ∀ path r, Json.Leads field path r → r.isObject = true := by
    intro path r h
    simp only [field] at h
    cases h with
    | here => rfl
    | inside hitems _ _ =>
      cases hitems with
      | member hmem => simp [JsonField.key] at hmem
  have hobjects : ∀ path r, Json.HasRecord (.array [selection]) path r → r.isObject = true := by
    intro path r h
    cases h with
    | root hi hleads =>
      obtain ⟨_, rfl⟩ := List.getElem?_eq_some_iff.1 hi
      simp only [selection, List.getElem_singleton] at hleads
      cases hleads with
      | here => rfl
      | @inside _ _ _ items _ _ hitems hi hleads =>
        obtain rfl : items = [field] := by
          cases hitems with
          | member hmem => simpa [JsonField.key] using hmem
        obtain ⟨_, rfl⟩ := List.getElem?_eq_some_iff.1 hi
        exact hfield _ r (List.getElem_singleton .. ▸ hleads)
  have hd : Decode.document .streamed Decode.maxOpen (.array [selection]) = .ok d := rfl
  exact ⟨_, d, hobjects, hd, toJson_of_decode hobjects hd⟩

end Document

end QueryMarkup
