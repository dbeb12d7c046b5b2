import QueryMarkup.Document.Basic
import QueryMarkup.Json.Decode.Value

/-!
# Documents from JSON

Selections and properties are records of a name, parameters, filters and properties, written as
objects or, in this order, as arrays. A record with properties is a selection, one with nothing but
a name a field.
-/

namespace QueryMarkup.Decode

def filterPair (delivery : Delivery) (room : Nat) : Json → Except DecodeError Filter
  | .array parts => enter room fun room =>
    match parts with
    | [] => .error (.tooShort 0 .pair)
    | name :: parts => do
      let name ← string name
      match parts with
      | [] => throw (.tooShort 1 .pair)
      | v :: parts =>
        let v ← value room v
        if parts.isEmpty then return ⟨name, v⟩ else throw (overlong delivery (parts.length + 2))
  | j => mismatch j .pair

def filters (delivery : Delivery) (room : Nat) : Json → Except DecodeError (List Filter)
  | .null => .ok []
  | .array pairs => enter room fun room => items (filterPair delivery room) pairs
  | .object entries => enter room fun room => do
    return (← members (value room) entries).map fun entry => ⟨entry.1, entry.2⟩
  | j => mismatch j .filters

/-! ## Selections and properties -/

/-- The two kinds of records. A property may lack properties or have null in their place. -/
inductive RecordKind where
  | selection
  | property
  deriving DecidableEq

def RecordKind.shape : RecordKind → JsonShape
  | selection => .selection
  | property => .property

/-- The fields of a record that were read so far. -/
structure Fields where
  name : Option String := none
  params : Option Value := none
  filters : Option (List Filter) := none
  properties : Option (Option (List Property)) := none

namespace Fields

def has (f : Fields) : JsonField → Bool
  | .name => f.name.isSome
  | .params => f.params.isSome
  | .filters => f.filters.isSome
  | .properties => f.properties.isSome

end Fields

/-- A record that was read to its end. -/
structure Record where
  header : Header
  properties : Option (List Property)

/-- Completes a record. A name is never missing, properties are not in selections. -/
def finish (kind : RecordKind) (f : Fields) : Except DecodeError Record :=
  match f.name with
  | none => .error (.missingField .name)
  | some name =>
    if kind = .selection && f.properties.isNone then .error (.missingField .properties)
    else .ok ⟨⟨name, f.params, f.filters.getD []⟩, f.properties.join⟩

/-- A record is a selection if it has properties, and otherwise a field, which has nothing but its
name. -/
def Record.toProperty (r : Record) : Except DecodeError Property :=
  match r.properties with
  | some properties => .ok (.selection r.header properties)
  | none =>
    if r.header.params.isSome || !r.header.filters.isEmpty then
      .error (.orphanArguments r.header.name)
    else .ok (.field r.header.name)

def Record.toSelection (r : Record) : Selection := ⟨r.header, r.properties.getD []⟩

mutual

def record (delivery : Delivery) (kind : RecordKind) (room : Nat) :
    Json → Except DecodeError Record
  | .array parts => enter room fun room => do
    finish kind (← positional delivery kind room parts.length JsonField.all {} parts)
  | .object entries => enter room fun room => do
    finish kind (← keyed delivery kind room {} entries)
  | j => mismatch j kind.shape

/-- The fields of an array, which are in order and end with the properties. -/
def positional (delivery : Delivery) (kind : RecordKind) (room length : Nat) :
    List JsonField → Fields → List Json → Except DecodeError Fields
  | [], f, [] => .ok f
  | [], _, _ :: _ => .error (overlong delivery length)
  | field :: _, _, [] => .error (.tooShort (if field = .name then 0 else 3) kind.shape)
  | field :: fields, f, j :: rest => do
    let f ← assign delivery kind room f field j
    positional delivery kind room length fields f rest

/-- The fields of an object by their keys. -/
def keyed (delivery : Delivery) (kind : RecordKind) (room : Nat) :
    Fields → List (String × Json) → Except DecodeError Fields
  | f, [] => .ok f
  | f, (key, j) :: rest =>
    match JsonField.ofKey? key with
    | none => .error (.unknownField key)
    | some field => do
      if f.has field then throw (.duplicateField field)
      let f ← assign delivery kind room f field j
      keyed delivery kind room f rest

/-- Decodes one field. -/
def assign (delivery : Delivery) (kind : RecordKind) (room : Nat) (f : Fields) (field : JsonField)
    (j : Json) : Except DecodeError Fields :=
  match field with
  | .name => do
    return { f with name := some (← string j) }
  | .params => do
    return { f with params := some (← value room j) }
  | .filters => do
    return { f with filters := some (← filters delivery room j) }
  | .properties =>
    match j with
    | .null =>
      if kind = .property then .ok { f with properties := some none } else mismatch .null .sequence
    | .array parts => enter room fun room => do
      return { f with properties := some (some (← properties delivery room parts)) }
    | j => mismatch j .sequence

def properties (delivery : Delivery) (room : Nat) :
    List Json → Except DecodeError (List Property)
  | [] => .ok []
  | j :: rest => do
    let r ← record delivery .property room j
    let p ← r.toProperty
    let others ← properties delivery room rest
    return p :: others

end

def property (delivery : Delivery) (room : Nat) (j : Json) : Except DecodeError Property := do
  (← record delivery .property room j).toProperty

def selection (delivery : Delivery) (room : Nat) (j : Json) : Except DecodeError Selection := do
  return (← record delivery .selection room j).toSelection

def document (delivery : Delivery) (room : Nat) : Json → Except DecodeError Document
  | .array parts => enter room fun room => do
    return ⟨← items (selection delivery room) parts⟩
  | j => mismatch j .sequence

end QueryMarkup.Decode
