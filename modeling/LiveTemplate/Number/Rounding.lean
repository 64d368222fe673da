import LiveTemplate.Number

/-!
# Rounding to binary64

A quotient of natural numbers goes to the nearest binary64 number, a tie to the even
significand. Beyond the largest number lies infinity, and close to zero the exponent
stops at its least value.
-/
namespace LiveTemplate.Number

/-- The quotient rounded to a natural number, a half to the even neighbour. -/
def roundHalfEven (num den : Nat) : Nat :=
  let floor := num / den
  let twice := 2 * (num % den)
  if den < twice || (den == twice && floor % 2 == 1) then floor + 1 else floor

/-- The quotient divided by `2 ^ e`, again as a quotient. -/
def scaled (num den : Nat) (e : Int) : Nat × Nat :=
  (num * Nat.pow 2 (-e).toNat, den * Nat.pow 2 e.toNat)

/-- The exponent at which the quotient has a significand of 53 bits, but not below
the least exponent. -/
def exponentOf (num den : Nat) : Int :=
  let e : Int := Nat.log2 num - Nat.log2 den - 53
  let (n, d) := scaled num den e
  max minExponent (if n / d < significandBound then e else e + 1)

/-- The quotient `num / den` rounded; `den` is not zero. -/
def ofQuotient (negative : Bool) (num den : Nat) : Number :=
  if num = 0 then zero negative
  else
    let e := exponentOf num den
    let (n, d) := scaled num den e
    let significand := roundHalfEven n d
    let (m, e) :=
      if significand = significandBound then (significandBound / 2, e + 1) else (significand, e)
    if maxExponent < e then .infinity negative else .finite negative m e

/-- The number `digits · 10 ^ exponent` rounded. Its order of magnitude is checked
first: no power of ten is taken that could not matter. -/
def ofDecimal (negative : Bool) (digits : Nat) (exponent : Int) : Number :=
  let magnitude : Int := (Nat.toDigits 10 digits).length + exponent
  if digits = 0 || magnitude < -323 then zero negative
  else if 310 < magnitude then .infinity negative
  else ofQuotient negative (digits * Nat.pow 10 exponent.toNat) (Nat.pow 10 (-exponent).toNat)

/-- A whole number rounded. -/
def ofInt (n : Int) : Number := ofQuotient (n < 0) n.natAbs 1

end LiveTemplate.Number
