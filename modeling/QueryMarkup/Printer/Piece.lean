import QueryMarkup.Document.Basic

/-!
# Printed pieces

A document is laid out as a list of pieces: names and punctuation, blanks between them, and
literals. The layout is indented by a number of blanks per level, or has no blanks at all where that
number is zero. Only literals can lack a text, so laying out never fails.
-/

namespace QueryMarkup

inductive Piece where
  | sign (text : List Char)
  | blank (text : List Char)
  | literal (value : Literal)
  deriving DecidableEq

namespace Piece

def name (s : String) : Piece := .sign s.toList

/-- The text of a piece, or the double that has none. -/
def text : Piece → Except Binary64 (List Char)
  | sign text => .ok text
  | blank text => .ok text
  | literal l => l.text

/-- The text up to the first double that has none, and that double. -/
def write : List Piece → List Char × Option Binary64
  | [] => ([], none)
  | p :: rest =>
    match p.text with
    | .error x => ([], some x)
    | .ok text =>
      let (more, fault) := write rest
      (text ++ more, fault)

end Piece

namespace Layout

/-- A blank that only an indented layout has. -/
def blank (indent : Nat) (text : List Char) : List Piece :=
  if indent = 0 then [] else [.blank text]

def newline (indent : Nat) : List Piece := blank indent ['\n']

def space (indent : Nat) : List Piece := blank indent [' ']

/-- The blanks in front of a line `depth` levels deep. -/
def margin (indent depth : Nat) : List Piece :=
  blank indent (List.replicate (depth * indent) ' ')

/-- What stands between two siblings. -/
def separator (indent : Nat) : List Piece := .sign [','] :: newline indent

def argument (indent : Nat) (entry : String × Literal) : List Piece :=
  [.name entry.1, .sign [':']] ++ space indent ++ [.literal entry.2]

/-- An argument list with its parentheses. -/
def arguments (indent : Nat) : Value → List Piece
  | .literal l => [.sign ['('], .literal l, .sign [')']]
  | .mapping m =>
    .sign ['('] ::
      ((Piece.sign [','] :: space indent).intercalate (m.entries.map (argument indent))
        ++ [.sign [')']])

def params (indent : Nat) : Option Value → List Piece
  | none => []
  | some v => arguments indent v

def filter (indent : Nat) (f : Filter) : List Piece :=
  .sign ['.'] :: .name f.name :: arguments indent f.value

def header (indent : Nat) (h : Header) : List Piece :=
  .name h.name :: (params indent h.params ++ h.filters.flatMap (filter indent))

/-- A list of siblings between braces; `depth` is the level of the closing brace. -/
def block (indent depth : Nat) (siblings : List (List Piece)) : List Piece :=
  .sign ['\x7b'] ::
    (newline indent ++ (separator indent).intercalate siblings ++ newline indent
      ++ margin indent depth ++ [.sign ['\x7d']])

mutual

/-- A property with the margin of its level. -/
def property (indent depth : Nat) : Property → List Piece
  | .field name => margin indent depth ++ [.name name]
  | .selection h properties =>
    margin indent depth ++ header indent h ++ space indent
      ++ block indent depth (each indent (depth + 1) properties)

/-- The pieces of each of some properties. -/
def each (indent depth : Nat) : List Property → List (List Piece)
  | [] => []
  | p :: rest => property indent depth p :: each indent depth rest

end

def document (indent : Nat) (d : Document) : List Piece :=
  block indent 0 (each indent 1 (d.selections.map Property.ofSelection))

end Layout

end QueryMarkup
