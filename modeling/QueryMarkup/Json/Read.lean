import QueryMarkup.Json.Number
import QueryMarkup.Text.Quoted

/-!
# Reading JSON

A text is cut into tokens, signs and scalars, blanks between them being left out. A machine with a
stack of open arrays and objects puts the tokens together to a tree. Nesting is not limited here.
-/

namespace QueryMarkup.Json

inductive Token where
  | sign (c : Char)
  | scalar (value : Json)

def isSign (c : Char) : Bool :=
  c = '[' || c = ']' || c = '\x7b' || c = '\x7d' || c = ',' || c = ':'

def isBlank (c : Char) : Bool := c = ' ' || c = '\t' || c = '\n' || c = '\r'

def isNumeralPart (c : Char) : Bool :=
  c.isDigit || c = '-' || c = '+' || c = '.' || c = 'e' || c = 'E'

def word? (text : List Char) : Option Json :=
  if text = "null".toList then some null
  else if text = "true".toList then some (bool true)
  else if text = "false".toList then some (bool false)
  else none

def string? (body : List Char) : Option Json :=
  match Escaped.decode body with
  | .ok text => some (string (String.ofList text))
  | .error _ => none

/-- The token that starts with `c`, and the number of characters behind `c` that belong to it. -/
def token (c : Char) (rest : List Char) : Option (Token × Nat) :=
  if isSign c then some (.sign c, 0)
  else if c = '"' then
    let (body, count) := Quoted.body '"' rest
    (body.bind string?).map fun j => (.scalar j, count)
  else if c.isAlpha then
    let word := rest.takeWhile Char.isAlpha
    (word? (c :: word)).map fun j => (.scalar j, word.length)
  else
    let numeral := rest.takeWhile isNumeralPart
    (number? (c :: numeral)).map fun j => (.scalar j, numeral.length)

/-- Cuts a text into tokens behind `skip` characters. -/
def tokensBehind (skip : Nat) : List Char → Option (List Token)
  | [] => some []
  | c :: rest =>
    match skip with
    | skip + 1 => tokensBehind skip rest
    | 0 =>
      if isBlank c then tokensBehind 0 rest
      else
        match token c rest with
        | none => none
        | some (t, count) => (tokensBehind count rest).map (t :: ·)

def tokens (text : List Char) : Option (List Token) := tokensBehind 0 text

theorem tokensBehind_eq (skip : Nat) (text : List Char) :
    tokensBehind skip text = tokens (text.drop skip) := by
  induction text generalizing skip with
  | nil => simp [tokens, tokensBehind]
  | cons c rest ih =>
    cases skip with
    | zero => rfl
    | succ skip => exact ih skip

theorem tokens_nil : tokens [] = some [] := rfl

/-- Cutting goes token by token, blanks left out. -/
theorem tokens_cons (c : Char) (rest : List Char) :
    tokens (c :: rest) =
      if isBlank c then tokens rest
      else
        match token c rest with
        | none => none
        | some (t, count) => (tokens (rest.drop count)).map (t :: ·) := by
  rw [tokens, tokensBehind]
  simp only [tokensBehind_eq, List.drop_zero]

/-- An open array or object with what came before the item that is being read, last first. -/
inductive Frame where
  | array (before : List Json)
  | object (before : List (String × Json)) (key : String)

/-- What has to follow. -/
inductive Stage where
  | value
  | itemOrClose
  | keyOrClose
  | key (before : List (String × Json))
  | colon (before : List (String × Json)) (key : String)
  | behind (value : Json)

/-- A value starts. -/
def startValue (stack : List Frame) : Token → Option (Stage × List Frame)
  | .scalar j => some (.behind j, stack)
  | .sign c =>
    if c = '[' then some (.itemOrClose, stack)
    else if c = '\x7b' then some (.keyOrClose, stack)
    else none

/-- A value has ended: the next one, the next key or the end of what is open follows. -/
def afterValue (j : Json) (c : Char) : List Frame → Option (Stage × List Frame)
  | .array before :: stack =>
    if c = ',' then some (.value, .array (j :: before) :: stack)
    else if c = ']' then some (.behind (array (j :: before).reverse), stack)
    else none
  | .object before key :: stack =>
    if c = ',' then some (.key ((key, j) :: before), stack)
    else if c = '\x7d' then some (.behind (object ((key, j) :: before).reverse), stack)
    else none
  | [] => none

def step (stage : Stage) (stack : List Frame) (t : Token) : Option (Stage × List Frame) :=
  match stage, t with
  | .value, t => startValue stack t
  | .itemOrClose, .sign ']' => some (.behind (array []), stack)
  | .itemOrClose, t => startValue (.array [] :: stack) t
  | .keyOrClose, .sign '\x7d' => some (.behind (object []), stack)
  | .keyOrClose, .scalar (.string key) => some (.colon [] key, stack)
  | .key before, .scalar (.string key) => some (.colon before key, stack)
  | .colon before key, .sign ':' => some (.value, .object before key :: stack)
  | .behind j, .sign c => afterValue j c stack
  | _, _ => none

/-- Runs the machine to the end of the tokens. -/
def run (stage : Stage) (stack : List Frame) : List Token → Option Json
  | [] =>
    match stage, stack with
    | .behind j, [] => some j
    | _, _ => none
  | t :: rest =>
    match step stage stack t with
    | some (stage, stack) => run stage stack rest
    | none => none

/-- The tree of a text, if it is JSON. -/
def read? (text : String) : Option Json := (tokens text.toList).bind (run .value [])

end QueryMarkup.Json
