import QueryMarkup.Document.Basic
import QueryMarkup.Reader.Literal
import QueryMarkup.Reader.Repetition

/-!
# The grammar of query markup

```text
document  := '{' object (',' object)* '}'
object    := header '{' property (',' property)* '}'
header    := identifier arguments? filter*
filter    := '.' identifier arguments
arguments := '(' ( literal | pair (',' pair)* )? ')'
pair      := identifier ':' literal
property  := object | identifier
```

Each rule decides by the next sign how to go on. Blanks may stand between any two signs. Objects
nest as deep as there is room; the depth of the recursion is that room.
-/

namespace QueryMarkup

/-- What stands between the parentheses of an argument list. -/
inductive Arguments where
  | none
  | positional (value : Literal)
  | named (pairs : ArgMap)

namespace Arguments

/-- As parameters of a selection; an empty list is no parameters. -/
def params? : Arguments → Option Value
  | none => .none
  | positional l => some (.literal l)
  | named m => some (.mapping m)

/-- As the value of a filter; an empty list is an empty mapping. -/
def filterValue : Arguments → Value
  | none => .mapping .empty
  | positional l => .literal l
  | named m => .mapping m

end Arguments

namespace Parse

/-- Whether an identifier and a colon come next. -/
def startsPair (text : List Char) : Bool :=
  let text := text.dropWhile isBlank
  (text.head?.any Identifier.isStart)
    && ((text.dropWhile Identifier.isPart).dropWhile isBlank).head? = some ':'

def pair : Parse (String × Literal) := do
  let name ← identifier
  expect ':' .colon
  return (name, ← literal)

/-- Named or positional arguments, at least one. -/
def someArguments : Parse Arguments := do
  if ← scan fun text => (startsPair text, 0) then
    return .named (.ofList (← commaSeparated pair))
  else
    return .positional (← literal)

/-- An argument list behind its opening parenthesis. -/
def arguments : Parse Arguments :=
  traced .argumentList do
    if ← eat ')' then
      return .none
    else
      let args ← someArguments
      expect ')' .closeParenthesis
      return args

/-- A filter behind its dot. -/
def filter : Parse Filter :=
  traced .filter do
    let name ← identifier
    expect '(' .openParenthesis
    return ⟨name, (← arguments).filterValue⟩

/-- The parameters of a selection, if a parenthesis opens. -/
def params : Parse (Option Value) := do
  if ← eat '(' then return (← arguments).params? else return none

/-- The header of a selection behind its name. -/
def headerAfter (name : String) : Parse Header :=
  traced .header do
    let params ← params
    let filters ← afterEach '.' filter
    return ⟨name, params, filters⟩

/-- Whether a name with this sign behind it is that of a selection. -/
def opensSelection (sign : Char) : Bool := sign = '(' || sign = '.' || sign = '{'

/-- A property, a nested selection being read behind its name as told. -/
def property (selectionAfter : String → Parse Selection) : Parse Property :=
  traced .property do
    let name ← identifier
    blanks
    if (← look).any opensSelection then return .ofSelection (← selectionAfter name)
    else return .field name

/-- A selection behind its name, with `room` for that many selections in each other. -/
def selectionAfter (limit : Nat) : (room : Nat) → String → Parse Selection
  | 0, _ => traced .object (inside (fail (.tooDeep limit)))
  | room + 1, name =>
    traced .object <| inside do
      let header ← headerAfter name
      expect '{' .openBrace
      let properties ← commaSeparated (property (selectionAfter limit room))
      expect '}' .commaOrCloseBrace
      return ⟨header, properties⟩

def object (limit room : Nat) : Parse Selection := do
  selectionAfter limit room (← identifier)

/-- A whole text as a document. -/
def document (limit room : Nat) : Parse Document :=
  traced .document do
    expect '{' .openBrace
    let selections ← commaSeparated (object limit room)
    expect '}' .commaOrCloseBrace
    finish
    return ⟨selections⟩

/-- A whole text by one rule, its value left out. -/
def whole (limit room : Nat) : Rule → Parse Unit
  | .literal => do
    let _ ← literal
    finish
  | .identifier => do
    let _ ← identifier
    finish
  | .argumentList => do
    expect '(' .openParenthesis
    let _ ← arguments
    finish
  | .filter => do
    expect '.' .dot
    let _ ← filter
    finish
  | .header => do
    let _ ← headerAfter (← identifier)
    finish
  | .property => do
    let _ ← property (selectionAfter limit room)
    finish
  | .object => do
    let _ ← object limit room
    finish
  | .document => do
    let _ ← document limit room

end Parse

end QueryMarkup
