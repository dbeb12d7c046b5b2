import QueryMarkup.Document.Basic
import QueryMarkup.Json.Basic

/-!
# Documents as JSON

A document is the array of its selections. A selection is an object of its name, its parameters and
filters if there are any, and its properties; a field is an object of its name alone. Filters are
pairs of name and value, and nothing is validated.
-/

namespace QueryMarkup

/-- A double that is no finite number is null. -/
def Literal.toJson : Literal → Json
  | null => .null
  | bool b => .bool b
  | int i => .integer i.toInt
  | float x => if x.isFinite then .double x else .null
  | string s => .string s

def ArgMap.toJson (m : ArgMap) : Json :=
  .object (m.entries.map fun entry => (entry.1, entry.2.toJson))

def Value.toJson : Value → Json
  | literal l => l.toJson
  | mapping m => ArgMap.toJson m

def Filter.toJson (f : Filter) : Json := .array [.string f.name, f.value.toJson]

/-- The members of a selection but its properties. -/
def Header.toMembers (h : Header) : List (String × Json) :=
  ("name", .string h.name) ::
    ((match h.params with
      | none => []
      | some v => [("params", v.toJson)])
      ++ if h.filters.isEmpty then [] else [("filters", .array (h.filters.map Filter.toJson))])

mutual

def Property.toJson : Property → Json
  | .field name => .object [("name", .string name)]
  | .selection header properties =>
    .object (header.toMembers ++ [("properties", .array (Property.listToJson properties))])

def Property.listToJson : List Property → List Json
  | [] => []
  | p :: rest => p.toJson :: Property.listToJson rest

end

def Selection.toJson (s : Selection) : Json := (Property.ofSelection s).toJson

def Document.toJson (d : Document) : Json := .array (d.selections.map Selection.toJson)

end QueryMarkup
