import QueryMarkup.Binary64

/-!
# Decimals and numerals

A decimal is an integer of digits scaled by a power of ten. A double is written with the fewest
digits that read back as the same double, and of these with the nearest. For each count of digits
only two decimals can be nearest, the neighbours of the value on the grid with that many digits; a
reader tells which of them read back. Seventeen digits always suffice; the exact decimal stands
behind them.

A numeral is a sign, the digits of a whole part and, after a point, those of a fraction. A point
makes it the numeral of a double. Doubles are written without an exponent, so every finite double
has a numeral.
-/

namespace QueryMarkup

structure Decimal where
  digits : Nat
  exponent : Int
  deriving DecidableEq

namespace Decimal

def toRat (d : Decimal) : Rat := (d.digits : Rat) * (10 : Rat) ^ d.exponent

/-- The number of zeros at the end of the digits. -/
def trailingZeros (d : Decimal) : Nat :=
  ((Nat.toDigits 10 d.digits).reverse.takeWhile (· = '0')).length

/-- The same value without zeros at the end of its digits. -/
def stripped (d : Decimal) : Decimal :=
  ⟨d.digits / Nat.pow 10 d.trailingZeros, d.exponent + (d.trailingZeros : Int)⟩

/-- The power of ten of the leading digit. -/
def leadingExponent (d : Decimal) : Int :=
  ((Nat.toDigits 10 d.digits).length : Int) - 1 + d.exponent

end Decimal

namespace Binary64

/-- Which of two equally near decimals is taken: the greater, or the one whose digits are even. -/
inductive TieRule where
  | greater
  | even
  deriving DecidableEq

/-- Whether the decimal rounds to the double, signs apart. -/
def readsBack (x : Binary64) (d : Decimal) : Bool :=
  nearest x.isNegative d.toRat == x

/-- The nearer of a decimal below `q` and its successor on the grid. -/
def nearer (ties : TieRule) (q : Rat) (low : Decimal) : Decimal :=
  let high : Decimal := { low with digits := low.digits + 1 }
  let below := q - low.toRat
  let above := high.toRat - q
  if below < above then low
  else if above < below then high
  else match ties with
    | .greater => high
    | .even => if low.digits % 2 = 0 then low else high

/-- The power of ten above the leading digit of `q`. -/
def decimalExponent (q : Rat) : Int :=
  if 1 ≤ q then ((Nat.toDigits 10 q.floor.toNat).length : Int)
  else 1 - ((Nat.toDigits 10 (1 / q).floor.toNat).length : Int)

/-- The decimal with `count` digits that reads back as `x` and is nearest to it. -/
def withDigits (ties : TieRule) (x : Binary64) (count : Nat) : Option Decimal :=
  let q := x.magnitude
  let unit := decimalExponent q - (count : Int)
  let low : Decimal := ⟨(q * (10 : Rat) ^ (-unit)).floor.toNat, unit⟩
  let high : Decimal := { low with digits := low.digits + 1 }
  match x.readsBack low, x.readsBack high with
  | true, true => some (nearer ties q low)
  | true, false => some low
  | false, true => some high
  | false, false => none

/-- The value of a finite double in full: all are multiples of the smallest subnormal. -/
def exactDecimal (x : Binary64) : Decimal :=
  ⟨(x.magnitude * (10 : Rat) ^ (1074 : Int)).floor.toNat, -1074⟩

/-- The shortest decimal of a finite double, signs apart. -/
def shortest (ties : TieRule) (x : Binary64) : Decimal :=
  if x.magnitudeBits = 0 then ⟨0, 0⟩
  else
    match (List.range' 1 17).findSome? (withDigits ties x) with
    | some d => d.stripped
    | none => x.exactDecimal.stripped

end Binary64

structure Numeral where
  negative : Bool
  whole : List Char
  fraction : Option (List Char)
  deriving DecidableEq

namespace Numeral

def text (n : Numeral) : List Char :=
  (if n.negative then ['-'] else []) ++ n.whole ++
    match n.fraction with
    | none => []
    | some digits => '.' :: digits

/-- The integer that the digits before the point denote. -/
def toInt (n : Numeral) : Int :=
  let magnitude : Int := (Nat.ofDigitChars 10 n.whole 0 : Nat)
  if n.negative then -magnitude else magnitude

/-- The decimal that all digits denote, sign apart. -/
def toDecimal (n : Numeral) : Decimal :=
  let fraction := n.fraction.getD []
  ⟨Nat.ofDigitChars 10 (n.whole ++ fraction) 0, -(fraction.length : Int)⟩

/-- The double nearest to the numeral. -/
def toBinary64 (n : Numeral) : Binary64 :=
  Binary64.nearest n.negative n.toDecimal.toRat

def ofInt (i : Int) : Numeral :=
  ⟨decide (i < 0), Nat.toDigits 10 i.natAbs, none⟩

/-- A decimal in full, with at least one digit on either side of the point. -/
def ofDecimal (negative : Bool) (d : Decimal) : Numeral :=
  let digits := Nat.toDigits 10 d.digits
  if 0 ≤ d.exponent then
    ⟨negative, digits ++ List.replicate d.exponent.toNat '0', some ['0']⟩
  else
    let places := (-d.exponent).toNat
    let padded := List.replicate (places + 1 - digits.length) '0' ++ digits
    let width := padded.length - places
    ⟨negative, padded.take width, some (padded.drop width)⟩

/-- The shortest numeral of a finite double. -/
def ofBinary64 (ties : Binary64.TieRule) (x : Binary64) : Numeral :=
  ofDecimal x.isNegative (x.shortest ties)

end Numeral

end QueryMarkup
