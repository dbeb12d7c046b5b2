import QueryMarkup.Value
import QueryMarkup.Reader.Parse
import QueryMarkup.Text.Quoted

/-!
# Reading names and literals

A lexeme is a literal as it stands in the text: a word, a numeral or a quoted string. What it means
is decided afterwards, and a lexeme without meaning is a failure at its first character.
-/

namespace QueryMarkup

/-- A literal in the form it was written. A quoted string that is not closed has no body. -/
inductive Lexeme where
  | word (text : List Char)
  | numeral (numeral : Numeral)
  | quoted (quote : Char) (body : Option (List Char))
  deriving DecidableEq

namespace Lexeme

def keyword? (word : List Char) : Option Literal :=
  if word = "null".toList then some .null
  else if word = "true".toList then some (.bool true)
  else if word = "false".toList then some (.bool false)
  else none

/-- A numeral with a point means a double and has to be finite, one without an integer. -/
def ofNumeral (n : Numeral) : Except Cause Literal :=
  if n.fraction.isSome then
    if n.toBinary64.isFinite then .ok (.float n.toBinary64) else .error (.numberRange n)
  else
    match Literal.ofInt? n.toInt with
    | some l => .ok l
    | none => .error (.integerRange n)

def meaning : Lexeme → Except Cause Literal
  | word text =>
    match keyword? text with
    | some l => .ok l
    | none => .error (.unknownWord text)
  | numeral n => ofNumeral n
  | quoted quote none => .error (.unterminated quote)
  | quoted _ (some body) =>
    match Quoted.decode body with
    | .ok text => .ok (.string (String.ofList text))
    | .error reason => .error (.badString reason)

end Lexeme

namespace Parse

def identifier : Parse String := do
  blanks
  match ← look with
  | some c =>
    if Identifier.isStart c then return String.ofList (← takeWhile Identifier.isPart)
    else expected .identifier
  | none => expected .identifier

def digits : Parse (List Char) := do
  let ds ← takeWhile Char.isDigit
  if ds.isEmpty then expected .digit else return ds

def numeral : Parse Numeral := do
  let negative := (← look) = some '-'
  if negative then next
  let whole ← digits
  if (← look) = some '.' then
    next
    return ⟨negative, whole, some (← digits)⟩
  else
    return ⟨negative, whole, none⟩

def quoted (quote : Char) : Parse Lexeme := do
  next
  return .quoted quote (← scan (Quoted.body quote))

/-- The literal that starts at the cursor, in the form it is written. -/
def lexeme : Parse Lexeme := do
  match ← look with
  | some c =>
    if c = '"' || c = '\'' then quoted c
    else if c = '-' || c.isDigit then return .numeral (← numeral)
    else if Identifier.isStart c then return .word (← takeWhile Identifier.isPart)
    else expected .literal
  | none => expected .literal

def literal : Parse Literal := do
  blanks
  check lexeme Lexeme.meaning

end Parse

end QueryMarkup
