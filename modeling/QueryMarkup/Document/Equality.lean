import QueryMarkup.Document.Basic

/-!
# Equality of documents

Documents are equal when they have equal selections in the same order. Inside, named arguments
compare whatever their order, and doubles compare as numbers.
-/

namespace QueryMarkup

/-- Equality of numbers: both zeros are one number, and a NaN is none. -/
def Binary64.sameNumber (x y : Binary64) : Bool :=
  !x.isNaN && !y.isNaN && (x == y || (x.magnitudeBits == 0 && y.magnitudeBits == 0))

/-- Equality with doubles compared as numbers. -/
def Literal.equal : Literal → Literal → Bool
  | float x, float y => x.sameNumber y
  | a, b => a == b

/-- Equality of named arguments whatever their order. -/
def ArgMap.equal (m n : ArgMap) : Bool := OrderedMap.equal Literal.equal m n

def Value.equal : Value → Value → Bool
  | literal a, literal b => a.equal b
  | mapping m, mapping n => ArgMap.equal m n
  | _, _ => false

/-- Equality of lists, entry by entry. -/
def listEqual {α : Type} (same : α → α → Bool) : List α → List α → Bool
  | [], [] => true
  | a :: as, b :: bs => same a b && listEqual same as bs
  | _, _ => false

def Filter.equal (f g : Filter) : Bool := f.name == g.name && f.value.equal g.value

def Header.equal (h k : Header) : Bool :=
  h.name == k.name
    && (match h.params, k.params with
      | none, none => true
      | some v, some w => v.equal w
      | _, _ => false)
    && listEqual Filter.equal h.filters k.filters

mutual

def Property.equal : Property → Property → Bool
  | .field a, .field b => a == b
  | .selection h ps, .selection k qs => h.equal k && Property.listEqual ps qs
  | _, _ => false

def Property.listEqual : List Property → List Property → Bool
  | [], [] => true
  | p :: ps, q :: qs => p.equal q && Property.listEqual ps qs
  | _, _ => false

end

def Selection.equal (s t : Selection) : Bool :=
  s.toHeader.equal t.toHeader && Property.listEqual s.properties t.properties

def Document.equal (d e : Document) : Bool := listEqual Selection.equal d.selections e.selections

end QueryMarkup
