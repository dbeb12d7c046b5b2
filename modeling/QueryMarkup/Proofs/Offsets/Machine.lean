import QueryMarkup.Proofs.Offsets.Slice

/-!
# Reading by byte offsets

The grammar once more, for a machine that keeps numbers: the place where it is, and how many
selections are open. It sees the text in slices alone, between offsets it has come to or saved. It
breaks off wherever such a slice does not exist, a number would drop below zero, more selections
would be open than bytes were passed, a loop goes round more often than there are bytes and a
selection is called in itself more often than limit and text admit, and where a string token is not
in quotes or ends in a backslash that stands alone.
-/

namespace QueryMarkup.Checked

variable {α β σ : Type}

/-- A place and the number of open selections, which is no greater than that of the bytes passed. -/
structure Machine where
  position : Position
  depth : Nat
  depth_le : depth ≤ position.offset

def Machine.start : Machine := ⟨.start, 0, Nat.le_refl 0⟩

/-- What the machine does: it ends with a value or a report, or breaks off. -/
def Run (α : Type) := Machine → Option (Except Report α × Machine)

namespace Run

instance : Monad Run where
  pure a m := some (.ok a, m)
  bind r next m :=
    match r m with
    | some (.ok a, m) => next a m
    | some (.error e, m) => some (.error e, m)
    | none => none

def breakOff : Run α := fun _ => none

def ofOption : Option α → Run α
  | some a => pure a
  | none => breakOff

def place : Run Position := fun m => some (.ok m.position, m)

def fail (report : Report) : Run α := fun m => some (.error report, m)

/-- Repeats a step until it has a result. -/
def loop (step : σ → Run (σ ⊕ α)) : (bound : Nat) → σ → Run α
  | 0, _ => breakOff
  | bound + 1, s => do
    match ← step s with
    | .inl s => loop step bound s
    | .inr a => return a

/-- Whether it ends with `true`, left where it started. -/
def probe (r : Run Bool) : Run Bool := fun m =>
  (r m).map fun
    | (.ok b, _) => (.ok b, m)
    | (.error _, _) => (.ok false, m)

section
variable (text : List Char)

def slice (start stop : Nat) : Run (List Char) := ofOption (slice? text start stop)

/-- What was passed since a place. -/
def since (mark : Position) : Run (List Char) := do
  slice text mark.offset (← place).offset

def peek : Run (Option Char) := do
  return (← slice text (← place).offset (byteSize text)).head?

/-- Moves behind a character. -/
def pass (c : Char) : Run Unit := fun m =>
  some (.ok (), ⟨m.position.after c, m.depth, by
    rw [Position.offset_after]
    exact Nat.le_add_right_of_le m.depth_le⟩)

def next : Run (Option Char) := do
  match ← peek text with
  | some c =>
    pass c
    return some c
  | none => return none

def repeatedly (step : σ → Run (σ ⊕ α)) (s : σ) : Run α := loop step (byteSize text + 1) s

def skipWhile (belongs : Char → Bool) : Run Unit :=
  repeatedly text (fun _ => do
    match ← peek text with
    | some c =>
      if belongs c then
        let _ ← next text
        return .inl ()
      else return .inr ()
    | none => return .inr ()) ()

/-- The line around a place and a caret below it. -/
def context? (mark : Position) : Option (List Char) := do
  let before ← slice? text 0 mark.offset
  let behind ← slice? text mark.offset (byteSize text)
  let stop := (find? '\n' behind).elim (byteSize text) (mark.offset + ·)
  let line ← slice? text (lineStart before) stop
  guard (1 ≤ mark.column)
  return trimmed line ++ '\n' :: (List.replicate (mark.column - 1) ' ' ++ ['^'])

def failAt (mark : Position) (cause : Cause) : Run α := do
  let context ← ofOption (context? text mark)
  fail { line := mark.line
         column := mark.column
         offset := mark.offset
         message := cause.message
         expected := cause.expected
         context := String.ofList context }

def unexpected (what : Expected) : Run α := do
  let found ← peek text
  failAt text (← place) (.unexpected what found)

/-! ## Signs, names and literals -/

def peekSign : Run (Option Char) := do
  skipWhile text Parse.isBlank
  peek text

def eat (sign : Char) : Run Bool := do
  if (← peekSign text) = some sign then
    let _ ← next text
    return true
  else return false

def expect (sign : Char) (what : Expected) : Run Unit := do
  unless ← eat text sign do unexpected text what

def finish : Run Unit := do
  skipWhile text Parse.isBlank
  if byteSize text ≤ (← place).offset then return () else unexpected text .endOfInput

def identifier : Run String := do
  skipWhile text Parse.isBlank
  let mark ← place
  match ← peek text with
  | some c =>
    if Identifier.isStart c then
      let _ ← next text
      skipWhile text Identifier.isPart
      return String.ofList (← since text mark)
    else unexpected text .identifier
  | none => unexpected text .identifier

def digits : Run Unit := do
  if (← peek text).any Char.isDigit then skipWhile text Char.isDigit
  else unexpected text .digit

def numeral : Run Unit := do
  if (← peek text) = some '-' then
    let _ ← next text
  digits text
  if (← peek text) = some '.' then
    let _ ← next text
    digits text

/-- Passes over a string up to its closing quote, if there is one on the line. -/
def stringBody (quote : Char) : Run Bool :=
  repeatedly text (fun _ => do
    match ← next text with
    | some c =>
      if c = quote then return .inr true
      else if c = '\\' then
        match ← next text with
        | some d => if Quoted.isLineBreak d then return .inr false else return .inl ()
        | none => return .inr false
      else if Quoted.isLineBreak c then return .inr false
      else return .inl ()
    | none => return .inr false) ()

def string (quote : Char) (mark : Position) : Run Unit := do
  let _ ← next text
  unless ← stringBody text quote do failAt text mark (.unterminated quote)

inductive TokenKind where
  | word
  | numeral
  | string

def token (mark : Position) : Run TokenKind := do
  match ← peek text with
  | some c =>
    if c = '"' ∨ c = '\'' then
      string text c mark
      return .string
    else if c = '-' ∨ c.isDigit then
      numeral text
      return .numeral
    else if Identifier.isStart c then
      skipWhile text Identifier.isPart
      return .word
    else unexpected text .literal
  | none => unexpected text .literal

end

end Run

/-- A numeral by its text. -/
def numeralOf (token : List Char) : Numeral :=
  let negative := token.head? = some '-'
  let unsigned := if negative then token.tail else token
  { negative
    whole := unsigned.takeWhile (· ≠ '.')
    fraction := (unsigned.dropWhile (· ≠ '.')).tail? }

/-- The body of a string as it stands between double quotes, unless a backslash stands alone at its
end. -/
def doubleQuoted? : List Char → Option (List Char)
  | [] => some []
  | ['\\'] => none
  | '\\' :: '\'' :: rest => (doubleQuoted? rest).map ('\'' :: ·)
  | '\\' :: c :: rest => (doubleQuoted? rest).map ('\\' :: c :: ·)
  | '"' :: rest => (doubleQuoted? rest).map ('\\' :: '"' :: ·)
  | c :: rest => (doubleQuoted? rest).map (c :: ·)

/-- The text that a token stands for, which is a string in quotes. -/
def decode? (token : List Char) : Option (Except Cause Literal) := do
  guard (1 ≤ byteSize token)
  let body ← slice? token 1 (byteSize token - 1)
  guard (token = '"' :: (body ++ ['"']) ∨ token = '\'' :: (body ++ ['\'']))
  let json ← doubleQuoted? body
  match Escaped.decode json with
  | .ok decoded => return .ok (.string (String.ofList decoded))
  | .error fault => return .error (.badString (Quoted.reason json fault))

def convert? : Run.TokenKind → (token : List Char) → Option (Except Cause Literal)
  | .word, token => some (Lexeme.word token).meaning
  | .numeral, token => some (Lexeme.numeral (numeralOf token)).meaning
  | .string, token => decode? token

namespace Run

/-! ## Rules and entry points -/

section
variable (text : List Char) (limit : Nat)

def literal : Run Literal := do
  skipWhile text Parse.isBlank
  let mark ← place
  let kind ← token text mark
  match ← ofOption (convert? kind (← since text mark)) with
  | .ok l => return l
  | .error cause => failAt text mark cause

def eachAfter (sign : Char) (item : Run α) : (before : List α) → Run (List α) :=
  repeatedly text fun before => do
    if ← eat text sign then return .inl (before ++ [← item]) else return .inr before

def commaSeparated (item : Run α) : Run (List α) := do
  eachAfter text ',' item [← item]

def startsPair : Run Bool :=
  probe do
    let _ ← identifier text
    eat text ':'

def pair : Run (String × Literal) := do
  let name ← identifier text
  expect text ':' .colon
  return (name, ← literal text)

def someArguments : Run Arguments := do
  if ← startsPair text then return .named (.ofList (← commaSeparated text (pair text)))
  else return .positional (← literal text)

def arguments : Run Arguments := do
  if ← eat text ')' then return .none
  else
    let args ← someArguments text
    expect text ')' .closeParenthesis
    return args

def filter : Run Filter := do
  let name ← identifier text
  expect text '(' .openParenthesis
  return ⟨name, (← arguments text).filterValue⟩

def params : Run (Option Value) := do
  if ← eat text '(' then return (← arguments text).params? else return none

def headerAfter (name : String) : Run Header := do
  let params ← params text
  let filters ← eachAfter text '.' (filter text) []
  return ⟨name, params, filters⟩

def property (selectionAfter : String → Run Selection) : Run Property := do
  let name ← identifier text
  if (← peekSign text).any Parse.opensSelection then return .ofSelection (← selectionAfter name)
  else return .field name

/-- Counts a selection that is entered, if a byte was passed for it, and tells how many are open. -/
def enter : Run Nat := fun m =>
  if h : m.depth + 1 ≤ m.position.offset then some (.ok (m.depth + 1), ⟨m.position, m.depth + 1, h⟩)
  else none

def leave : Run Unit := fun m =>
  if 1 ≤ m.depth then
    some (.ok (), ⟨m.position, m.depth - 1, Nat.le_trans (Nat.sub_le _ _) m.depth_le⟩)
  else none

/-- A selection behind its name, once it is entered. -/
def selectionBody (selectionAfter : String → Run Selection) (name : String) : Run Selection := do
  let header ← headerAfter text name
  expect text '{' .openBrace
  let properties ← commaSeparated text (property text selectionAfter)
  expect text '}' .commaOrCloseBrace
  return ⟨header, properties⟩

/-- A selection behind its name, called in itself no more often than told. -/
def selectionAfter : (calls : Nat) → String → Run Selection
  | 0, _ => breakOff
  | calls + 1, name => do
    if limit < (← enter) then failAt text (← place) (.tooDeep limit)
    else
      let selection ← selectionBody text (selectionAfter calls) name
      leave
      return selection

/-- The calls of a rule in itself that the limit and the length of the text admit. -/
def maxCalls : Nat := min limit (byteSize text) + 1

def object : Run Selection := do
  selectionAfter text limit (maxCalls text limit) (← identifier text)

def document : Run Document := do
  expect text '{' .openBrace
  let selections ← commaSeparated text (object text limit)
  expect text '}' .commaOrCloseBrace
  finish text
  return ⟨selections⟩

def whole : Rule → Run Unit
  | .literal => do
    let _ ← literal text
    finish text
  | .identifier => do
    let _ ← identifier text
    finish text
  | .argumentList => do
    expect text '(' .openParenthesis
    let _ ← arguments text
    finish text
  | .filter => do
    expect text '.' .dot
    let _ ← filter text
    finish text
  | .header => do
    let _ ← headerAfter text (← identifier text)
    finish text
  | .property => do
    let _ ← property text (selectionAfter text limit (maxCalls text limit))
    finish text
  | .object => do
    let _ ← object text limit
    finish text
  | .document => do
    let _ ← document text limit

end

end Run

/-- The results of that many readings in a row, and the machine behind them. -/
def results? (text : List Char) (limit : Nat) :
    (count : Nat) → Machine → Option (List (Except Report Document) × Machine)
  | 0, m => some ([], m)
  | count + 1, m => do
    let (result, m) ← Run.document text limit m
    let (others, m) ← results? text limit count m
    return (result :: others, m)

/-- The results of matching what is left against one rule after another, and the machine behind. -/
def matches? (text : List Char) (limit : Nat) :
    List Rule → Machine → Option (List (Except Report Unit) × Machine)
  | [], m => some ([], m)
  | rule :: rules, m => do
    let (result, m) ← Run.whole text limit rule m
    let (others, m) ← matches? text limit rules m
    return (result :: others, m)

def recognize? (rule : Rule) (text : String) : Option (Except Error Unit) :=
  (Run.whole text.toList maxNesting rule .start).map fun r => r.1.mapError .malformed

def loadWith? (options : LoadOptions) (text : String) : Option (Except Error Document) :=
  (Run.document text.toList options.maxDepth .start).map fun r => r.1.mapError .malformed

/-- Bytes that are no text are cut in front of the fault, and the report is about what is left. -/
def loadBytes? (bytes : List UInt8) : Option (Except Error Document) :=
  match Utf8.decode bytes with
  | (text, none) => loadWith? {} (String.ofList text)
  | (front, some fault) => do
    let offset := byteSize front
    guard (offset ≤ bytes.length)
    let (valid, none) := Utf8.decode (bytes.take offset) | none
    let line ← slice? valid (lineStart valid) (byteSize valid)
    return .error (.malformed
      { line := valid.count '\n' + 1
        column := line.length + 1
        offset := offset
        message := (Document.spoiltReport front fault).message
        expected := none
        context := String.ofList line })

end QueryMarkup.Checked
