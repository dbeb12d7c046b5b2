import QueryMarkup.Value

/-!
# Documents

A document lists selections. A selection has a header, that is a name, optional parameters and
filters, and properties, each a field or a nested selection. All orders and repetitions are kept.
-/

namespace QueryMarkup

structure Filter where
  name : String
  value : Value

/-- All of a selection but its properties. -/
structure Header where
  name : String
  params : Option Value
  filters : List Filter

inductive Property where
  | field (name : String)
  | selection (header : Header) (properties : List Property)

structure Selection extends Header where
  properties : List Property

structure Document where
  selections : List Selection

namespace Property

def ofSelection (s : Selection) : Property := .selection s.toHeader s.properties

def name : Property → String
  | field name => name
  | selection header _ => header.name

def isField : Property → Bool
  | field _ => true
  | selection _ _ => false

def selection? : Property → Option Selection
  | field _ => none
  | selection header properties => some ⟨header, properties⟩

def field? : Property → Option String
  | field name => some name
  | selection _ _ => none

end Property

namespace Header

def named (name : String) : Header := ⟨name, none, []⟩

def withParams (h : Header) (params : Value) : Header := { h with params := some params }

def withFilter (h : Header) (name : String) (value : Value) : Header :=
  { h with filters := h.filters ++ [⟨name, value⟩] }

/-- The value of the last filter with this name. -/
def filter? (h : Header) (name : String) : Option Value :=
  (h.filters.reverse.find? fun filter => filter.name = name).map Filter.value

/-- The filters by name: each in the place of its first and with the value of its last. -/
def filterMap (h : Header) : OrderedMap Value :=
  .ofList (h.filters.map fun filter => (filter.name, filter.value))

end Header

namespace Selection

def named (name : String) : Selection := ⟨.named name, []⟩

def withParams (s : Selection) (params : Value) : Selection :=
  { s with toHeader := s.toHeader.withParams params }

def withFilter (s : Selection) (name : String) (value : Value) : Selection :=
  { s with toHeader := s.toHeader.withFilter name value }

def withProperty (s : Selection) (p : Property) : Selection :=
  { s with properties := s.properties ++ [p] }

def withField (s : Selection) (name : String) : Selection := s.withProperty (.field name)

def withSelection (s nested : Selection) : Selection := s.withProperty (.ofSelection nested)

/-- The names of the fields, nested selections left out. -/
def fields (s : Selection) : List String := s.properties.filterMap Property.field?

/-- The first nested selection with this name. -/
def selection? (s : Selection) (name : String) : Option Selection :=
  (s.properties.filterMap Property.selection?).find? fun nested => nested.name = name

end Selection

namespace Document

def empty : Document := ⟨[]⟩

def withSelection (d : Document) (s : Selection) : Document := ⟨d.selections ++ [s]⟩

def size (d : Document) : Nat := d.selections.length

def isEmpty (d : Document) : Bool := d.selections.isEmpty

/-- The first root selection with this name. -/
def get? (d : Document) (name : String) : Option Selection :=
  d.selections.find? fun s => s.name = name

end Document

end QueryMarkup
