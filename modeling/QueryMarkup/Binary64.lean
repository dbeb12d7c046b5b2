/-!
# Double-precision numbers

A double is its 64 bits: a sign, eleven bits of exponent and fifty-two of fraction. The value of a
finite double is a significand times a power of two, as an exact rational, so that nothing here
depends on machine arithmetic.

Every nonnegative rational has a nearest double: the quotient by the spacing of doubles around it
is rounded to an integer, a half going to the even neighbour. The significand and the exponent
field meet in one sum, so that a quotient that rounds up to the next power of two carries over.
-/

namespace QueryMarkup

structure Binary64 where
  bits : UInt64
  deriving DecidableEq

namespace Binary64

/-- The sign bit alone, as a number. -/
def signBit : Nat := 0x8000000000000000

/-- The bits of positive infinity: all exponents are used up. -/
def infinityBits : Nat := 0x7FF0000000000000

/-- The leading bit of a normal significand, which is not stored. -/
def hiddenBit : Nat := 0x10000000000000

/-- The bits without the sign. They grow with the magnitude. -/
def magnitudeBits (x : Binary64) : Nat := x.bits.toNat % signBit

def isNegative (x : Binary64) : Bool := decide (signBit ≤ x.bits.toNat)

def isNaN (x : Binary64) : Bool := decide (infinityBits < x.magnitudeBits)

def isFinite (x : Binary64) : Bool := decide (x.magnitudeBits < infinityBits)

def ofMagnitudeBits (negative : Bool) (magnitude : Nat) : Binary64 :=
  ⟨UInt64.ofNat (if negative then signBit + magnitude else magnitude)⟩

def infinity (negative : Bool) : Binary64 := ofMagnitudeBits negative infinityBits

def zero (negative : Bool) : Binary64 := ofMagnitudeBits negative 0

/-- The significand of a finite double; subnormal ones lack the leading bit. -/
def significand (x : Binary64) : Nat :=
  let fraction := x.magnitudeBits % hiddenBit
  if x.magnitudeBits < hiddenBit then fraction else hiddenBit + fraction

/-- The power of two that scales the significand; the smallest is shared by the subnormals. -/
def exponent (x : Binary64) : Int :=
  if x.magnitudeBits < hiddenBit then -1074 else (x.magnitudeBits / hiddenBit : Nat) - 1075

/-- The absolute value of a finite double. -/
def magnitude (x : Binary64) : Rat := (x.significand : Rat) * (2 : Rat) ^ x.exponent

/-- The nearest integer, of two equally near the even one. -/
def nearestInteger (q : Rat) : Nat :=
  let low := q.floor.toNat
  let rest := q - (low : Rat)
  if rest < 1 / 2 then low
  else if 1 / 2 < rest then low + 1
  else low + low % 2

/-- The greatest `e` with `2 ^ e ≤ q`, for positive `q`. -/
def binaryExponent (q : Rat) : Int :=
  let guess : Int := (q.num.natAbs.log2 : Int) - (q.den.log2 : Int)
  if (2 : Rat) ^ guess ≤ q then guess else guess - 1

/-- The exponent of the spacing of doubles around `q`. -/
def spacingExponent (q : Rat) : Int := max (binaryExponent q - 52) (-1074)

/-- The bits of the double nearest to `q`, which may be those of infinity. -/
def nearestBits (q : Rat) : Nat :=
  let e := spacingExponent q
  min infinityBits ((e + 1074).toNat * hiddenBit + nearestInteger (q * (2 : Rat) ^ (-e)))

/-- The double nearest to the nonnegative `q`, with the sign asked for. -/
def nearest (negative : Bool) (q : Rat) : Binary64 :=
  if q = 0 then zero negative else ofMagnitudeBits negative (nearestBits q)

def ofInt (i : Int) : Binary64 := nearest (decide (i < 0)) (i.natAbs : Rat)

/-- The product of finite doubles, rounded. -/
def product (x y : Binary64) : Binary64 :=
  nearest (x.isNegative != y.isNegative) (x.magnitude * y.magnitude)

/-- The quotient of finite doubles, rounded; the divisor is no zero. -/
def quotient (x y : Binary64) : Binary64 :=
  nearest (x.isNegative != y.isNegative) (x.magnitude / y.magnitude)

end Binary64

end QueryMarkup
