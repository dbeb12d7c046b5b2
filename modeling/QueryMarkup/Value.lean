import QueryMarkup.Numeral
import QueryMarkup.OrderedMap
import QueryMarkup.Text.Escaped

/-!
# Names, literals and arguments

Names start with a letter or an underscore and go on with these, digits and slashes, all ASCII.
Literals are the primitive values of arguments. They have a written form, but for doubles that are no
finite number, which have only a display text. A list of arguments amounts to one positional literal
or to named literals.
-/

namespace QueryMarkup

namespace Identifier

def isStart (c : Char) : Bool := c.isAlpha || c = '_'

def isPart (c : Char) : Bool := c.isAlphanum || c = '_' || c = '/'

def isIdentifier (name : List Char) : Bool :=
  match name with
  | [] => false
  | c :: rest => isStart c && rest.all isPart

end Identifier

inductive Literal where
  | null
  | bool (value : Bool)
  | int (value : Int64)
  | float (value : Binary64)
  | string (value : String)
  deriving DecidableEq

namespace Literal

def ofInt32 (i : Int32) : Literal := .int i.toInt64

def ofUInt32 (n : UInt32) : Literal := .int (Int64.ofNat n.toNat)

/-- The integer as a literal, if it fits in sixty-four bits. -/
def ofInt? (i : Int) : Option Literal :=
  if Int64.minValue.toInt ≤ i ∧ i ≤ Int64.maxValue.toInt then some (.int (Int64.ofInt i)) else none

def isNull : Literal → Bool
  | null => true
  | _ => false

def bool? : Literal → Option Bool
  | bool b => some b
  | _ => none

def int? : Literal → Option Int64
  | int i => some i
  | _ => none

/-- The number as a double; an integer is rounded to the nearest one. -/
def float? : Literal → Option Binary64
  | int i => some (.ofInt i.toInt)
  | float x => some x
  | _ => none

def string? : Literal → Option String
  | string s => some s
  | _ => none

def kindName : Literal → String
  | null => "null"
  | bool _ => "boolean"
  | int _ => "integer"
  | float _ => "float"
  | string _ => "string"

/-- The finite double as it is written: of two equally short and near decimals the greater. -/
def floatNumeral (x : Binary64) : Numeral := .ofBinary64 .greater x

/-- The name of a double that is no finite number. -/
def nonFiniteName (x : Binary64) : String :=
  if x.isNaN then "NaN" else if x.isNegative then "-inf" else "inf"

/-- The written form, or the double that has none. -/
def text : Literal → Except Binary64 (List Char)
  | null => .ok "null".toList
  | bool true => .ok "true".toList
  | bool false => .ok "false".toList
  | int i => .ok (Numeral.ofInt i.toInt).text
  | float x => if x.isFinite then .ok (floatNumeral x).text else .error x
  | string s => .ok (Escaped.quote s.toList)

/-- The written form, or else the name of the double. -/
def display (l : Literal) : String :=
  match l.text with
  | .ok text => String.ofList text
  | .error x => nonFiniteName x

end Literal

abbrev ArgMap := OrderedMap Literal

inductive Value where
  | literal (value : Literal)
  | mapping (arguments : ArgMap)

namespace Value

def isLiteral : Value → Bool
  | literal _ => true
  | mapping _ => false

def isMapping (v : Value) : Bool := !v.isLiteral

def literal? : Value → Option Literal
  | literal l => some l
  | mapping _ => none

def mapping? : Value → Option ArgMap
  | literal _ => none
  | mapping m => some m

/-- The named argument `key`; a positional literal has none. -/
def get? (v : Value) (key : String) : Option Literal := v.mapping?.bind (·.get? key)

end Value

end QueryMarkup
