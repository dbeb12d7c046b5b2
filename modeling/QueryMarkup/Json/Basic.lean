import QueryMarkup.Numeral
import QueryMarkup.Text.Escaped

/-!
# JSON trees

Members of objects keep their order and their repetitions. Integers of up to sixty-four bits stay
apart from doubles, and a numeral that is refused for its size is the infinite double.

The text of a tree is compact: no blanks, members in their order. A double is written in full with a
point where its leading digit is worth from `1e-5` to `1e15`, and otherwise by its digits and the
exponent with its sign. Doubles that are no finite number are written as null.
-/

namespace QueryMarkup

inductive Json where
  | null
  | bool (value : Bool)
  | integer (value : Int)
  | double (value : Binary64)
  | string (value : String)
  | array (items : List Json)
  | object (members : List (String × Json))

namespace Json

/-- Puts a member in its place by key, unless there is one with that key. -/
def insertMember (key : String) (value : Json) : List (String × Json) → List (String × Json)
  | [] => [(key, value)]
  | (k, j) :: rest =>
    if key < k then (key, value) :: (k, j) :: rest
    else if key = k then (k, j) :: rest
    else (k, j) :: insertMember key value rest

mutual

/-- The tree with members sorted by key, of repeated keys only the last. -/
def sorted : Json → Json
  | array items => array (sortedItems items)
  | object members => object (sortedMembers members)
  | j => j

def sortedItems : List Json → List Json
  | [] => []
  | j :: rest => j.sorted :: sortedItems rest

def sortedMembers : List (String × Json) → List (String × Json)
  | [] => []
  | (key, j) :: rest => insertMember key j.sorted (sortedMembers rest)

end

/-- The leading digits' exponents for which a double is written in full. -/
def isPlainExponent (e : Int) : Bool := decide (-5 ≤ e ∧ e < 16)

/-- Digits, a point behind the first of several, and the exponent with its sign. -/
def scientific (negative : Bool) (d : Decimal) : List Char :=
  let digits := Nat.toDigits 10 d.digits
  let e := d.leadingExponent
  (if negative then ['-'] else []) ++ digits.take 1
    ++ (if digits.length = 1 then [] else '.' :: digits.drop 1)
    ++ 'e' :: (if e < 0 then '-' else '+') :: Nat.toDigits 10 e.natAbs

/-- The text of a finite double; of two equally short and near decimals the even one. -/
def doubleText (x : Binary64) : List Char :=
  let d := x.shortest .even
  if isPlainExponent d.leadingExponent then (Numeral.ofDecimal x.isNegative d).text
  else scientific x.isNegative d

mutual

def text : Json → List Char
  | null => "null".toList
  | bool true => "true".toList
  | bool false => "false".toList
  | integer i => (Numeral.ofInt i).text
  | double x => if x.isFinite then doubleText x else "null".toList
  | string s => Escaped.quote s.toList
  | array items => '[' :: ([','].intercalate (itemTexts items) ++ [']'])
  | object members => '\x7b' :: ([','].intercalate (memberTexts members) ++ ['\x7d'])

def itemTexts : List Json → List (List Char)
  | [] => []
  | j :: rest => j.text :: itemTexts rest

def memberTexts : List (String × Json) → List (List Char)
  | [] => []
  | (key, j) :: rest => (Escaped.quote key.toList ++ ':' :: j.text) :: memberTexts rest

end

end Json

end QueryMarkup
