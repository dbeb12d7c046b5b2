import QueryMarkup.Numeral
import QueryMarkup.Text.Cursor

/-!
# Errors

Reading fails with a report of the first violation of the grammar, writing with the reason why a
document has no text, and either with a failure of the stream used.

A failure of reading tells why reading stops, and where: it points at a place, which may lie before
the one where reading stopped. Its report quotes the line of the text around that place.
-/

namespace QueryMarkup

/-- A violation of the grammar: its place, what it is, what would have been right there, and the
line of the text around it. -/
structure Report where
  line : Nat
  column : Nat
  offset : Nat
  message : String
  expected : Option String
  context : String
  deriving DecidableEq

inductive Error where
  | malformed (report : Report)
  | unsupported (message : String)
  | io (message : String)
  deriving DecidableEq

namespace Error

def message : Error → String
  | malformed r => s!"Syntax error at line {r.line}, column {r.column}: {r.message}\n{r.context}"
  | unsupported message => s!"Unsupported structure: {message}"
  | io message => s!"IO error: {message}"

def isMalformed : Error → Bool
  | malformed _ => true
  | _ => false

/-- Line and column of a violation of the grammar. -/
def place? : Error → Option (Nat × Nat)
  | malformed r => some (r.line, r.column)
  | _ => none

/-- Byte offset of a violation of the grammar. -/
def offset? : Error → Option Nat
  | malformed r => some r.offset
  | _ => none

end Error

/-- The rules of the grammar. -/
inductive Rule where
  | literal
  | identifier
  | argumentList
  | filter
  | header
  | property
  | object
  | document
  deriving DecidableEq

def Rule.name : Rule → String
  | literal => "literal"
  | identifier => "identifier"
  | argumentList => "argument list"
  | filter => "filter"
  | header => "header"
  | property => "property"
  | object => "object"
  | document => "document"

/-- What can be missing at a place. -/
inductive Expected where
  | openBrace
  | commaOrCloseBrace
  | openParenthesis
  | closeParenthesis
  | colon
  | dot
  | identifier
  | literal
  | digit
  | endOfInput
  deriving DecidableEq

def Expected.text : Expected → String
  | openBrace => "'\x7b'"
  | commaOrCloseBrace => "',' or '\x7d'"
  | openParenthesis => "'('"
  | closeParenthesis => "')'"
  | colon => "':'"
  | dot => "'.'"
  | identifier => "identifier"
  | literal => "literal"
  | digit => "digit"
  | endOfInput => "end of input"

inductive Cause where
  | unexpected (expected : Expected) (found : Option Char)
  | unknownWord (word : List Char)
  | unterminated (quote : Char)
  | integerRange (numeral : Numeral)
  | numberRange (numeral : Numeral)
  | badString (reason : String)
  | tooDeep (limit : Nat)
  deriving DecidableEq

namespace Cause

def message : Cause → String
  | unexpected expected (some c) => s!"expected {expected.text}, found '{c}'"
  | unexpected expected none => s!"expected {expected.text}, found end of input"
  | unknownWord word => s!"expected literal, found '{String.ofList word}'"
  | unterminated _ => "unterminated string"
  | integerRange numeral => s!"integer {String.ofList numeral.text} is out of range"
  | numberRange numeral => s!"number {String.ofList numeral.text} is out of range"
  | badString reason => s!"invalid string literal: {reason}"
  | tooDeep limit => s!"selections nested deeper than {limit}"

/-- What would have been right. -/
def expected : Cause → Option String
  | unexpected expected _ => some expected.text
  | unterminated quote => some (if quote = '"' then "'\"'" else "\"'\"")
  | tooDeep _ => none
  | _ => some Expected.literal.text

end Cause

structure Failure where
  cause : Cause
  /-- The place that the failure points at. -/
  mark : Cursor
  /-- The place where reading stopped. -/
  stop : Cursor
  /-- The selections that were entered and not left, one refused for its depth included. -/
  opened : Nat

namespace Failure

/-- The line around a place, without carriage returns at its end. -/
def lineAround (text : List Char) (mark : Cursor) : List Char :=
  let passed := text.take (text.length - mark.rest.length)
  let before := (passed.reverse.takeWhile (· ≠ '\n')).reverse
  let behind := mark.rest.takeWhile (· ≠ '\n')
  ((before ++ behind).reverse.dropWhile (· = '\r')).reverse

/-- The line around a place, and below it a caret that points at the column. -/
def context (text : List Char) (mark : Cursor) : List Char :=
  lineAround text mark ++ '\n' :: (List.replicate (mark.position.column - 1) ' ' ++ ['^'])

/-- The report of a failure to read `text`. -/
def report (f : Failure) (text : List Char) : Report where
  line := f.mark.position.line
  column := f.mark.position.column
  offset := f.mark.position.offset
  message := f.cause.message
  expected := f.cause.expected
  context := String.ofList (context text f.mark)

end Failure

end QueryMarkup
