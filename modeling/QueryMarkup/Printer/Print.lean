import QueryMarkup.Document.Validation
import QueryMarkup.Error
import QueryMarkup.Printer.Piece

/-!
# Printing documents

A document is validated and then written, which fails at a double that is no finite number. A
printer collects the texts of documents one behind the other; one that fails while it is written
leaves its text up to the double.
-/

namespace QueryMarkup

structure PrintOptions where
  /-- Blanks per level. -/
  indent : Nat := 2
  /-- Whether there are no blanks whatever `indent` says. -/
  compact : Bool := false
  deriving DecidableEq

namespace PrintOptions

def compacted : PrintOptions := { compact := true }

def withIndent (o : PrintOptions) (indent : Nat) : PrintOptions := { o with indent }

def withCompact (o : PrintOptions) (compact : Bool) : PrintOptions := { o with compact }

/-- The blanks per level that are written. -/
def effectiveIndent (o : PrintOptions) : Nat := if o.compact then 0 else o.indent

end PrintOptions

/-- Why a document is not printed. -/
inductive PrintError where
  | violation (violation : Violation)
  | nonFinite (value : Binary64)
  deriving DecidableEq

namespace PrintError

def message : PrintError → String
  | violation v => v.message
  | nonFinite x => s!"float {Literal.nonFiniteName x} has no literal form"

def toError (e : PrintError) : Error := .unsupported e.message

end PrintError

structure Printer where
  indent : Nat
  output : String

namespace Printer

def new (options : PrintOptions) : Printer := ⟨options.effectiveIndent, ""⟩

/-- Appends the text of a document, as far as it has one. -/
def print (p : Printer) (d : Document) : Except PrintError Unit × Printer :=
  match d.validate with
  | .error v => (.error (.violation v), p)
  | .ok () =>
    let (text, fault) := Piece.write (Layout.document p.indent d)
    let p := { p with output := p.output ++ String.ofList text }
    match fault with
    | none => (.ok (), p)
    | some x => (.error (.nonFinite x), p)

end Printer

/-- The text of a document. -/
def Document.print (options : PrintOptions) (d : Document) : Except PrintError String :=
  match (Printer.new options).print d with
  | (.ok (), p) => .ok p.output
  | (.error e, _) => .error e

end QueryMarkup
