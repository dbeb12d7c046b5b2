import QueryMarkup.Json.Basic

/-!
# JSON numbers

A numeral without point and exponent is read as an integer if it fits in sixty-four bits. Any other
is read as a double, and in rounded steps: the digits in front, as many as fit in sixty-four bits,
give a double, and it is multiplied or divided by the double of a power of ten. What comes out need
not be the double nearest to the numeral; a numeral is refused where it would be infinite.
-/

namespace QueryMarkup.Json

/-- The greatest integer of sixty-four bits without a sign. -/
def maxWord : Nat := 0xFFFFFFFFFFFFFFFF

/-- Goes on with an integer by digits as long as it fits in sixty-four bits. Gives the integer and the
digits that are left. -/
def leading (significand : Nat) : List Char → Nat × List Char
  | [] => (significand, [])
  | c :: rest =>
    let next := Nat.ofDigitChars 10 [c] significand
    if next ≤ maxWord then leading next rest else (significand, c :: rest)

section
variable {significand : Nat} {c : Char} (rest : List Char)

theorem leading_cons_of_le (h : 10 * significand + (c.toNat - '0'.toNat) ≤ maxWord) :
    leading significand (c :: rest) =
      leading (10 * significand + (c.toNat - '0'.toNat)) rest := by
  simp only [leading, Nat.ofDigitChars_cons, Nat.ofDigitChars_nil, if_pos h]

theorem leading_cons_of_lt (h : maxWord < 10 * significand + (c.toNat - '0'.toNat)) :
    leading significand (c :: rest) = (significand, c :: rest) := by
  simp only [leading, Nat.ofDigitChars_cons, Nat.ofDigitChars_nil, if_neg (Nat.not_le.2 h)]

end

/-- The double of a power of ten. -/
def powerOfTen (n : Nat) : Binary64 := .nearest false (⟨1, n⟩ : Decimal).toRat

/-- Divides that many times by the greatest power of ten that is a double. -/
def shrink : (times : Nat) → Binary64 → Binary64
  | 0, x => x
  | times + 1, x => if x.magnitudeBits = 0 then x else shrink times (x.quotient (powerOfTen 308))

/-- The double of a significand times a power of ten, with each step rounded. It is infinite where
the power or the product is too large. -/
def scaled (negative : Bool) (significand : Nat) (exponent : Int) : Binary64 :=
  let x := .nearest negative (significand : Rat)
  let n := exponent.natAbs
  if 0 ≤ exponent then
    if n ≤ 308 then x.product (powerOfTen n)
    else if significand = 0 then x
    else .infinity negative
  else (shrink ((n - 1) / 308) x).quotient (powerOfTen ((n - 1) % 308 + 1))

/-- The double of the digits before and behind a point. Digits before the point that are left count
for the exponent, those behind it do not. -/
def ofDigits (negative : Bool) (whole fraction : List Char) (exponent : Int) : Binary64 :=
  let (significand, skipped) := leading 0 whole
  let (significand, ignored) := leading significand fraction
  scaled negative significand
    (exponent + skipped.length + ignored.length - fraction.length)

/-- The value of an integer numeral. Where it does not fit in sixty-four bits, with a sign if it has
one, it is a double; so is a negative zero. -/
def ofInteger (negative : Bool) (digits : List Char) : Json :=
  let (magnitude, skipped) := leading 0 digits
  if !skipped.isEmpty || negative && (magnitude = 0 || 0x8000000000000000 < magnitude) then
    double (ofDigits negative digits [] 0)
  else integer (if negative then -(magnitude : Int) else magnitude)

/-- Some digits and what follows them. -/
def digits? (text : List Char) : Option (List Char × List Char) :=
  let digits := text.takeWhile Char.isDigit
  if digits.isEmpty then none else some (digits, text.dropWhile Char.isDigit)

/-- Digits without a zero in front of others, and what follows them. -/
def whole? (text : List Char) : Option (List Char × List Char) :=
  match digits? text with
  | some ('0' :: _ :: _, _) => none
  | r => r

/-- The digits behind a point, if there is one. -/
def fraction? : List Char → Option (Option (List Char) × List Char)
  | '.' :: text => (digits? text).map fun r => (some r.1, r.2)
  | text => some (none, text)

/-- The exponent that ends a numeral, if there is one. -/
def exponent? : List Char → Option (Option Int)
  | [] => some none
  | e :: text =>
    let (negative, text) :=
      match text with
      | '-' :: text => (true, text)
      | '+' :: text => (false, text)
      | text => (false, text)
    match digits? text with
    | some (digits, []) =>
      let magnitude : Int := (Nat.ofDigitChars 10 digits 0 : Nat)
      if e = 'e' ∨ e = 'E' then some (some (if negative then -magnitude else magnitude)) else none
    | _ => none

def number? (text : List Char) : Option Json := do
  let (negative, text) :=
    match text with
    | '-' :: text => (true, text)
    | text => (false, text)
  let (whole, text) ← whole? text
  let (fraction, text) ← fraction? text
  let exponent ← exponent? text
  if fraction.isNone && exponent.isNone then return ofInteger negative whole
  else return double (ofDigits negative whole (fraction.getD []) (exponent.getD 0))

end QueryMarkup.Json
