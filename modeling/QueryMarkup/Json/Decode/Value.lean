import QueryMarkup.Value
import QueryMarkup.Json.DecodeError

/-!
# Values from JSON

Decoding follows the tree in the order of its text, and the first problem ends it. `room` is the
number of arrays and objects that may still be entered inside each other. A tree is decoded while it
is read (streamed), or first read as a whole, its members sorted, and then decoded (buffered).
-/

namespace QueryMarkup

/-- How a tree reaches the decoder. -/
inductive Delivery where
  | streamed
  | buffered
  deriving DecidableEq

namespace Decode

/-- Enters an array or object, which takes room. -/
def enter {α : Type} (room : Nat) (inside : Nat → Except DecodeError α) : Except DecodeError α :=
  match room with
  | 0 => .error .recursionLimit
  | room + 1 => inside room

def checkNumber (x : Binary64) : Except DecodeError Unit :=
  if x.isFinite then .ok () else .error .numberOutOfRange

mutual

/-- Passes a tree that can be read as a whole. -/
def checkWhole (room : Nat) : Json → Except DecodeError Unit
  | .double x => checkNumber x
  | .array items => enter room fun room => checkItems room items
  | .object members => enter room fun room => checkMembers room members
  | _ => .ok ()

def checkItems (room : Nat) : List Json → Except DecodeError Unit
  | [] => .ok ()
  | j :: rest => do
    checkWhole room j
    checkItems room rest

def checkMembers (room : Nat) : List (String × Json) → Except DecodeError Unit
  | [] => .ok ()
  | (_, j) :: rest => do
    checkWhole room j
    checkMembers room rest

end

/-- Refuses a tree for its type. A number is read first. -/
def mismatch {α : Type} (j : Json) (expected : JsonShape) : Except DecodeError α :=
  match j with
  | .double x => do
    checkNumber x
    throw (.wrongType j expected)
  | _ => .error (.wrongType j expected)

/-- An array has more items than its shape. -/
def overlong (delivery : Delivery) (length : Nat) : DecodeError :=
  match delivery with
  | .streamed => .trailing
  | .buffered => .tooLong length

def string : Json → Except DecodeError String
  | .string s => .ok s
  | j => mismatch j .string

def integer (i : Int) : Except DecodeError Literal :=
  match Literal.ofInt? i with
  | some l => .ok l
  | none => .error (.integerRange i)

def literal (room : Nat) (j : Json) : Except DecodeError Literal :=
  match j with
  | .null => .ok .null
  | .bool b => .ok (.bool b)
  | .integer i => integer i
  | .double x => do
    checkNumber x
    return .float x
  | .string s => .ok (.string s)
  | .array _ => enter room fun _ => .error (.wrongType j .literal)
  | .object _ => enter room fun _ => .error (.wrongType j .literal)

/-- Decodes the values of members in order. -/
def members {α : Type} (decode : Json → Except DecodeError α) :
    List (String × Json) → Except DecodeError (List (String × α))
  | [] => .ok []
  | (key, j) :: rest => do
    let a ← decode j
    let others ← members decode rest
    return (key, a) :: others

/-- Decodes items in order. -/
def items {α : Type} (decode : Json → Except DecodeError α) :
    List Json → Except DecodeError (List α)
  | [] => .ok []
  | j :: rest => do
    let a ← decode j
    let others ← items decode rest
    return a :: others

def argMap (room : Nat) : Json → Except DecodeError ArgMap
  | .object entries => enter room fun room => do
    return .ofList (← members (literal room) entries)
  | j => mismatch j .argumentMap

/-- A value is read as a whole; then it is a literal or a mapping of literals, or no value. -/
def value (room : Nat) (j : Json) : Except DecodeError Value := do
  checkWhole room j
  match literal room j with
  | .ok l => return .literal l
  | .error _ =>
    match argMap room j with
    | .ok m => return .mapping m
    | .error _ => throw .noVariant

/-- The arrays and objects that may be open at once. -/
def maxOpen : Nat := 127

/-- Decodes a tree as it is delivered. -/
def deliver {α : Type} (decode : Delivery → Nat → Json → Except DecodeError α)
    (delivery : Delivery) (j : Json) : Except DecodeError α :=
  match delivery with
  | .streamed => decode .streamed maxOpen j
  | .buffered => do
    checkWhole maxOpen j
    decode .buffered maxOpen j.sorted

end Decode

end QueryMarkup
