import QueryMarkup.Document.Basic
import QueryMarkup.Value

/-!
# Validation

A document can be written only if it can be read again: it has selections, their names and those of
fields, filters and arguments are identifiers, every selection has properties, none has empty
parameters, and nesting is limited. The first violation in document order is reported.
-/

namespace QueryMarkup

/-- The deepest nesting of selections that is read by default and that is ever written. -/
def maxNesting : Nat := 128

inductive NameRole where
  | selection
  | filter
  | field
  | argument
  deriving DecidableEq

def NameRole.word : NameRole → String
  | selection => "selection"
  | filter => "filter"
  | field => "field"
  | argument => "argument"

inductive Violation where
  | noSelections
  | badName (role : NameRole) (name : String)
  | tooDeep (selection : String)
  | emptyParams (selection : String)
  | noProperties (selection : String)
  deriving DecidableEq

def Violation.message : Violation → String
  | noSelections => "document has no selections"
  | badName role name => s!"invalid {role.word} name '{name}'"
  | tooDeep selection => s!"selection '{selection}' is nested deeper than {maxNesting}"
  | emptyParams selection => s!"selection '{selection}' has empty params; use no params instead"
  | noProperties selection => s!"selection '{selection}' has no properties"

namespace Validation

def checkName (role : NameRole) (name : String) : Except Violation Unit :=
  if Identifier.isIdentifier name.toList then .ok () else .error (.badName role name)

def checkNames (role : NameRole) : List String → Except Violation Unit
  | [] => .ok ()
  | name :: rest => do
    checkName role name
    checkNames role rest

def checkValue : Value → Except Violation Unit
  | .literal _ => .ok ()
  | .mapping arguments => checkNames .argument arguments.keys

def checkParams (selection : String) : Option Value → Except Violation Unit
  | none => .ok ()
  | some (.literal _) => .ok ()
  | some (.mapping arguments) =>
    if arguments.isEmpty then .error (.emptyParams selection)
    else checkNames .argument arguments.keys

def checkFilters : List Filter → Except Violation Unit
  | [] => .ok ()
  | filter :: rest => do
    checkName .filter filter.name
    checkValue filter.value
    checkFilters rest

/-- Checks the part of a selection before its properties, `depth` selections deep. -/
def checkHeader (depth : Nat) (h : Header) : Except Violation Unit := do
  checkName .selection h.name
  if maxNesting < depth then throw (.tooDeep h.name)
  checkParams h.name h.params
  checkFilters h.filters

mutual

def checkProperty (depth : Nat) : Property → Except Violation Unit
  | .field name => checkName .field name
  | .selection header properties => do
    checkHeader (depth + 1) header
    if properties.isEmpty then throw (.noProperties header.name)
    checkProperties (depth + 1) properties

/-- Checks the properties of a selection that is itself `depth` deep. -/
def checkProperties (depth : Nat) : List Property → Except Violation Unit
  | [] => .ok ()
  | p :: rest => do
    checkProperty depth p
    checkProperties depth rest

end

/-- Checks root selections. -/
def checkSelections : List Selection → Except Violation Unit
  | [] => .ok ()
  | s :: rest => do
    checkProperty 0 (.ofSelection s)
    checkSelections rest

theorem checkSelections_eq (selections : List Selection) :
    checkSelections selections = checkProperties 0 (selections.map .ofSelection) := by
  induction selections with
  | nil => rfl
  | cons s rest ih => rw [checkSelections, ih, List.map_cons, checkProperties]

end Validation

/-- Passes a document that can be written, or tells its first violation. -/
def Document.validate (d : Document) : Except Violation Unit :=
  if d.isEmpty then .error .noSelections else Validation.checkSelections d.selections

end QueryMarkup
