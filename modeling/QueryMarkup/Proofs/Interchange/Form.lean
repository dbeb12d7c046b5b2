import Mathlib.Data.List.Forall2
import Mathlib.Data.List.Nodup
import QueryMarkup.Json.Decode.Document
import QueryMarkup.Proofs.OrderedMap

/-!
# The JSON form of documents

Which JSON trees stand for which documents. A selection or property is a record: an object with some
of the known keys, each once, or an array with all four fields in order. A record is a field if it
has no arguments, no filters and no properties, where an absent list of filters and an absent
property list are as good as null; it is a selection if it has an array of properties. Nothing here
limits nesting; `Json.nesting` counts it.
-/

namespace QueryMarkup

namespace Json

mutual

/-- The number of arrays and objects inside each other. -/
def nesting : Json → Nat
  | array items => itemsNesting items + 1
  | object members => membersNesting members + 1
  | _ => 0

def itemsNesting : List Json → Nat
  | [] => 0
  | j :: rest => max j.nesting (itemsNesting rest)

def membersNesting : List (String × Json) → Nat
  | [] => 0
  | (_, j) :: rest => max j.nesting (membersNesting rest)

end

theorem itemsNesting_le_iff {items : List Json} {n : Nat} :
    itemsNesting items ≤ n ↔ ∀ j ∈ items, j.nesting ≤ n := by
  induction items with
  | nil => simp [itemsNesting]
  | cons j rest ih => simp only [itemsNesting, Nat.max_le, ih, List.forall_mem_cons]

theorem membersNesting_le_iff {members : List (String × Json)} {n : Nat} :
    membersNesting members ≤ n ↔ ∀ e ∈ members, e.2.nesting ≤ n := by
  induction members with
  | nil => simp [membersNesting]
  | cons e rest ih => simp only [membersNesting, Nat.max_le, ih, List.forall_mem_cons]

theorem nesting_array_le_iff {items : List Json} {n : Nat} :
    (array items).nesting ≤ n ↔ ∃ m, n = m + 1 ∧ ∀ j ∈ items, j.nesting ≤ m := by
  cases n with
  | zero => simp [nesting]
  | succ n => simp [nesting, itemsNesting_le_iff]

theorem nesting_object_le_iff {members : List (String × Json)} {n : Nat} :
    (object members).nesting ≤ n ↔ ∃ m, n = m + 1 ∧ ∀ e ∈ members, e.2.nesting ≤ m := by
  cases n with
  | zero => simp [nesting]
  | succ n => simp [nesting, membersNesting_le_iff]

end Json

namespace JsonField

theorem key_injective : Function.Injective key := by
  intro field field'
  cases field <;> cases field' <;> decide

theorem ofKey?_key (field : JsonField) : ofKey? field.key = some field := by
  cases field <;> decide

theorem key_of_ofKey? {key : String} {field : JsonField} (h : ofKey? key = some field) :
    field.key = key := by
  simpa using List.find?_some h

/-- Fields under their keys. -/
def members (entries : List (JsonField × Json)) : List (String × Json) :=
  entries.map fun e => (e.1.key, e.2)

theorem mem_members {entries : List (JsonField × Json)} {field : JsonField} {j : Json} :
    (field.key, j) ∈ members entries ↔ (field, j) ∈ entries := by
  constructor
  · intro h
    obtain ⟨e, he, heq⟩ := List.mem_map.1 h
    obtain ⟨hkey, rfl⟩ := Prod.mk.inj heq
    exact key_injective hkey ▸ he
  · intro h
    exact List.mem_map.2 ⟨_, h, rfl⟩

theorem nodup_members {entries : List (JsonField × Json)} (h : (entries.map Prod.fst).Nodup) :
    ((members entries).map Prod.fst).Nodup := by
  have hkeys := h.map key_injective
  rw [List.map_map] at hkeys
  rwa [members, List.map_map]

/-- What is found under a field that comes once is all that is given for it. -/
theorem lookup_eq_some_iff {entries : List (JsonField × Json)}
    (h : (entries.map Prod.fst).Nodup) {field : JsonField} {j : Json} :
    entries.lookup field = some j ↔ (field, j) ∈ entries := by
  induction entries with
  | nil => simp
  | cons e rest ih =>
    obtain ⟨field', j'⟩ := e
    rw [List.map_cons, List.nodup_cons] at h
    rw [List.lookup_cons]
    by_cases hf : field = field'
    · subst hf
      have hnone : ∀ j, (field, j) ∉ rest := fun j hj => h.1 (List.mem_map.2 ⟨_, hj, rfl⟩)
      simp [hnone, eq_comm]
    · simp [beq_false_of_ne hf, hf, ih h.2]

end JsonField

namespace Interchange

/-! ## Values, filters and records -/

inductive IsLiteral : Json → Literal → Prop where
  | null : IsLiteral .null .null
  | bool {b : Bool} : IsLiteral (.bool b) (.bool b)
  | integer {i : Int64} : IsLiteral (.integer i.toInt) (.int i)
  | double {x : Binary64} : x.isFinite = true → IsLiteral (.double x) (.float x)
  | string {s : String} : IsLiteral (.string s) (.string s)

/-- A member whose value stands for what the name is paired with. -/
def Entry {α : Type} (Stands : Json → α → Prop) (e : String × Json) (pair : String × α) : Prop :=
  e.1 = pair.1 ∧ Stands e.2 pair.2

inductive IsValue : Json → Value → Prop where
  | literal {j : Json} {l : Literal} : IsLiteral j l → IsValue j (.literal l)
  | mapping {members : List (String × Json)} {pairs : List (String × Literal)} {m : ArgMap} :
      List.Forall₂ (Entry IsLiteral) members pairs → m.Collects pairs →
      IsValue (.object members) (.mapping m)

inductive IsPair : Json → Filter → Prop where
  | intro {n : String} {j : Json} {v : Value} : IsValue j v → IsPair (.array [.string n, j]) ⟨n, v⟩

inductive IsFilters : Json → List Filter → Prop where
  | null : IsFilters .null []
  | array {items : List Json} {filters : List Filter} :
      List.Forall₂ IsPair items filters → IsFilters (.array items) filters
  | object {members : List (String × Json)} {filters : List Filter} :
      List.Forall₂ (fun e f => Entry IsValue e (f.name, f.value)) members filters →
      IsFilters (.object members) filters

/-- The fields of a record, which it has under their keys or in their places. -/
inductive IsWritten : Json → List (JsonField × Json) → Prop where
  | object {entries : List (JsonField × Json)} : (entries.map Prod.fst).Nodup →
      IsWritten (.object (JsonField.members entries)) entries
  | array {parts : List Json} : parts.length = JsonField.all.length →
      IsWritten (.array parts) (JsonField.all.zip parts)

structure IsHeader (entries : List (JsonField × Json)) (h : Header) : Prop where
  name : entries.lookup .name = some (.string h.name)
  params : Option.Rel IsValue (entries.lookup .params) h.params
  filters : IsFilters ((entries.lookup .filters).getD .null) h.filters

mutual

inductive IsProperty : Json → Property → Prop where
  | field {j : Json} {entries : List (JsonField × Json)} {n : String} : IsWritten j entries →
      IsHeader entries ⟨n, none, []⟩ → (entries.lookup .properties).getD .null = .null →
      IsProperty j (.field n)
  | selection {j : Json} {entries : List (JsonField × Json)} {header : Header} {items : List Json}
      {properties : List Property} : IsWritten j entries → IsHeader entries header →
      entries.lookup .properties = some (.array items) → IsProperties items properties →
      IsProperty j (.selection header properties)

inductive IsProperties : List Json → List Property → Prop where
  | nil : IsProperties [] []
  | cons {j : Json} {p : Property} {items : List Json} {properties : List Property} :
      IsProperty j p → IsProperties items properties → IsProperties (j :: items) (p :: properties)

end

inductive IsDocument : Json → Document → Prop where
  | intro {items : List Json} {selections : List Selection} :
      List.Forall₂ (fun j s => IsProperty j (.ofSelection s)) items selections →
      IsDocument (.array items) ⟨selections⟩

theorem isProperties_iff {items : List Json} {properties : List Property} :
    IsProperties items properties ↔ List.Forall₂ IsProperty items properties := by
  constructor
  · induction items generalizing properties with
    | nil =>
      rintro ⟨⟩
      exact .nil
    | cons j items ih =>
      rintro (_ | ⟨hj, hitems⟩)
      exact .cons hj (ih hitems)
  · intro h
    induction h with
    | nil => exact .nil
    | cons hj _ ih => exact .cons hj ih

/-- Fields and selections alike are records with a header. -/
theorem IsProperty.exists_header {r : Json} {p : Property} (h : IsProperty r p) :
    ∃ entries header, IsWritten r entries ∧ IsHeader entries header := by
  cases h with
  | field hwritten hheader _ => exact ⟨_, _, hwritten, hheader⟩
  | selection hwritten hheader _ _ => exact ⟨_, _, hwritten, hheader⟩

/-- No field of a record comes twice. -/
theorem IsWritten.nodup {j : Json} {entries : List (JsonField × Json)} (h : IsWritten j entries) :
    (entries.map Prod.fst).Nodup := by
  cases h with
  | object hn => exact hn
  | array hlength =>
    rw [List.map_fst_zip (Nat.le_of_eq hlength.symm)]
    decide

theorem IsWritten.nesting_le_iff {j : Json} {entries : List (JsonField × Json)}
    (h : IsWritten j entries) {n : Nat} :
    j.nesting ≤ n ↔ ∃ m, n = m + 1 ∧ ∀ e ∈ entries, e.2.nesting ≤ m := by
  cases h with
  | object _ => simp only [Json.nesting_object_le_iff, JsonField.members, List.forall_mem_map]
  | @array parts hlength =>
    have hparts : (JsonField.all.zip parts).map Prod.snd = parts :=
      List.map_snd_zip (Nat.le_of_eq hlength)
    have hmem : ∀ m, (∀ j ∈ parts, j.nesting ≤ m) ↔
        ∀ e ∈ JsonField.all.zip parts, e.2.nesting ≤ m := fun m => by
      conv_lhs => rw [← hparts]
      exact List.forall_mem_map
    simp only [Json.nesting_array_le_iff, hmem]

end Interchange

end QueryMarkup
