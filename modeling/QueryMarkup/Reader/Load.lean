import QueryMarkup.Document.Validation
import QueryMarkup.Reader.Grammar
import QueryMarkup.Text.Utf8

/-!
# Loading documents

A session reads one text, document after document. Between two readings it keeps its place and the
number of selections that failures left open, which count against the limit of nesting.

A document comes from a text, from bytes or from a stream of chunks. Loading can log the rules met
and how it ended; what it returns does not depend on that.
-/

namespace QueryMarkup

structure Session where
  text : List Char
  limit : Nat
  cursor : Cursor
  depth : Nat

namespace Session

def start (text : List Char) (limit : Nat) : Session := ⟨text, limit, .start text, 0⟩

/-- The outcome of reading a document from here on. -/
def outcome (s : Session) : Outcome Document :=
  (Parse.document s.limit (s.limit - s.depth)).run s.cursor

/-- The session behind the reading, whatever came of it. -/
def advance (s : Session) : Session :=
  match s.outcome.result with
  | .ok (_, cursor) => { s with cursor }
  | .error f => { s with cursor := f.stop, depth := s.depth + f.opened }

def result (s : Session) : Except Report Document :=
  match s.outcome.result with
  | .ok (d, _) => .ok d
  | .error f => .error (f.report s.text)

/-- The results of that many readings in a row. -/
def results (s : Session) : (count : Nat) → List (Except Report Document)
  | 0 => []
  | count + 1 => s.result :: s.advance.results count

end Session

/-- Checks that the whole text, blanks around it aside, matches the rule. -/
def recognize (rule : Rule) (text : String) : Except Error Unit :=
  match ((Parse.whole maxNesting maxNesting rule).run (.start text.toList)).result with
  | .ok _ => .ok ()
  | .error f => .error (.malformed (f.report text.toList))

structure LoadOptions where
  /-- The deepest nesting of selections that is read. -/
  maxDepth : Nat := maxNesting
  /-- Whether the rules met are logged. -/
  debug : Bool := false

inductive LogRecord where
  | rule (record : TraceRecord)
  | loaded (roots : Nat)
  | failed (message : String)
  deriving DecidableEq

def LogRecord.text : LogRecord → String
  | rule ⟨.entered, r, p⟩ => s!"TRACE Match {r.name} at line {p.line}, column {p.column}"
  | rule ⟨.matched, r, p⟩ => s!"TRACE Matched {r.name} up to line {p.line}, column {p.column}"
  | loaded roots => s!"DEBUG Parsed {roots} root selections"
  | failed message => s!"DEBUG Parse failed: {message}"

/-- What loading returns and what it logs. -/
structure Loaded where
  result : Except Error Document
  log : List LogRecord

namespace Document

def loadLogged (options : LoadOptions) (text : String) : Loaded :=
  let session := Session.start text.toList options.maxDepth
  let result := session.result.mapError Error.malformed
  let last :=
    match result with
    | .ok d => LogRecord.loaded d.size
    | .error e => .failed e.message
  ⟨result, if options.debug then (session.outcome.trace ()).map .rule ++ [last] else []⟩

def loadWith (options : LoadOptions) (text : String) : Except Error Document :=
  (loadLogged options text).result

def load (text : String) : Except Error Document := loadWith {} text

/-- The report of bytes that are no text behind `valid`. Its place is counted back from their end,
and it quotes the line they spoil. -/
def spoiltReport (valid : List Char) (fault : Utf8.Fault) : Report :=
  let line := (valid.reverse.takeWhile (· ≠ '\n')).reverse
  let offset := byteSize valid
  let what :=
    match fault with
    | .incomplete => s!"incomplete utf-8 byte sequence from index {offset}"
    | .invalid length => s!"invalid utf-8 sequence of {length} bytes from index {offset}"
  { line := valid.count '\n' + 1
    column := line.length + 1
    offset := offset
    message := what
    expected := none
    context := String.ofList line }

def loadBytes (bytes : List UInt8) : Except Error Document :=
  match Utf8.decode bytes with
  | (text, none) => load (String.ofList text)
  | (valid, some fault) => .error (.malformed (spoiltReport valid fault))

/-- A source delivers chunks of bytes; then it ends or fails. -/
structure Source where
  chunks : List (List UInt8)
  failure : Option String

def loadStream (source : Source) : Except Error Document :=
  match source.failure with
  | some message => .error (.io message)
  | none =>
    match Utf8.decode source.chunks.flatten with
    | (text, none) => load (String.ofList text)
    | (_, some _) => .error (.io "stream did not contain valid UTF-8")

end Document

end QueryMarkup
