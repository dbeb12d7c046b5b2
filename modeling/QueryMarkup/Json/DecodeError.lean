import QueryMarkup.Json.Basic
import QueryMarkup.Text.Shown

/-!
# Failures of decoding

Why a JSON tree stands for no document.
-/

namespace QueryMarkup

/-- What a part of a document has to be in JSON. -/
inductive JsonShape where
  | string
  | sequence
  | selection
  | property
  | argumentMap
  | literal
  | filters
  | pair
  deriving DecidableEq

def JsonShape.text : JsonShape → String
  | string => "a string"
  | sequence => "a sequence"
  | selection => "struct Selection"
  | property => "struct RawProperty"
  | argumentMap => "a map"
  | literal => "null, a boolean, a number or a string"
  | filters => "a sequence of [name, value] pairs or a map of filters"
  | pair => "a tuple of size 2"

/-- The shape of an array that may be too short, with its length. -/
def JsonShape.lengthText (shape : JsonShape) : String :=
  match shape with
  | selection | property => s!"{shape.text} with 4 elements"
  | _ => shape.text

/-- The keys that selections and properties know. -/
inductive JsonField where
  | name
  | params
  | filters
  | properties
  deriving DecidableEq

namespace JsonField

def key : JsonField → String
  | name => "name"
  | params => "params"
  | filters => "filters"
  | properties => "properties"

/-- The order of the fields where they have no keys. -/
def all : List JsonField := [name, params, filters, properties]

def ofKey? (key : String) : Option JsonField := all.find? fun field => field.key = key

end JsonField

inductive DecodeError where
  | numberOutOfRange
  | recursionLimit
  | wrongType (found : Json) (expected : JsonShape)
  | integerRange (value : Int)
  | noVariant
  | unknownField (key : String)
  | duplicateField (field : JsonField)
  | missingField (field : JsonField)
  | tooShort (length : Nat) (expected : JsonShape)
  | tooLong (length : Nat)
  | trailing
  | orphanArguments (name : String)

namespace DecodeError

/-- A tree as a failure names it. -/
def found : Json → String
  | .null => "null"
  | .bool b => s!"boolean `{b}`"
  | .integer i => s!"integer `{i}`"
  | .double x => s!"floating point `{String.ofList (Json.doubleText x)}`"
  | .string s => s!"string {String.ofList (Shown.quote s.toList)}"
  | .array _ => "sequence"
  | .object _ => "map"

def message : DecodeError → String
  | numberOutOfRange => "number out of range"
  | recursionLimit => "recursion limit exceeded"
  | wrongType j shape => s!"invalid type: {found j}, expected {shape.text}"
  | integerRange i => s!"integer {i} is out of range"
  | noVariant => "data did not match any variant of untagged enum Value"
  | unknownField key =>
    s!"unknown field `{key}`, expected one of `name`, `params`, `filters`, `properties`"
  | duplicateField field => s!"duplicate field `{field.key}`"
  | missingField field => s!"missing field `{field.key}`"
  | tooShort length shape => s!"invalid length {length}, expected {shape.lengthText}"
  | tooLong length => s!"invalid length {length}, expected fewer elements in array"
  | trailing => "trailing characters"
  | orphanArguments name => s!"selection '{name}' has params or filters but no properties"

end DecodeError

end QueryMarkup
