import LiveTemplate.Number.Shortest

/-!
# Spellings of numbers

A number is spelled with its shortest decimal, positionally in a range of magnitudes
and with a power of ten outside it. The range and the remaining choices are data.
-/
namespace LiveTemplate.Number

structure Spelling where
  /-- Positional from ten to this power. -/
  lowest : Int
  /-- Positional below ten to this power. -/
  highest : Int
  /-- A positional whole number ends in a point and a zero. -/
  pointed : Bool
  /-- A power of ten that is not negative has a plus sign. -/
  plusSign : Bool
  /-- The negative zero has a minus sign. -/
  zeroSign : Bool
  infinityName : String

/-- The spelling of numbers in text: whole numbers are bare up to 10^21 and small
ones positional from 10^-6. -/
def plain : Spelling := ⟨-6, 21, false, true, false, "Infinity"⟩

/-- The spelling of numbers in listings: always with a point or a power of ten. -/
def detailed : Spelling := ⟨-4, 16, true, false, true, "inf"⟩

namespace Decimal

def positional (pointed : Bool) (d : Decimal) : List Char :=
  let whole := d.point.toNat
  if d.point ≤ 0 then ['0', '.'] ++ List.replicate (-d.point).toNat '0' ++ d.digits
  else if d.digits.length ≤ whole then
    d.digits ++ List.replicate (whole - d.digits.length) '0' ++
      (if pointed then ['.', '0'] else [])
  else d.digits.take whole ++ ['.'] ++ d.digits.drop whole

def scientific (plusSign : Bool) (d : Decimal) : List Char :=
  let exponent := d.point - 1
  let fraction := d.digits.drop 1
  d.digits.take 1 ++ (if fraction = [] then [] else '.' :: fraction) ++ ['e'] ++
    (if exponent < 0 then ['-'] else if plusSign then ['+'] else []) ++
    Nat.toDigits 10 exponent.natAbs

end Decimal

def spell (spelling : Spelling) : Number → String
  | .nan => "NaN"
  | .infinity negative => (if negative then "-" else "") ++ spelling.infinityName
  | .finite negative 0 _ =>
      (if negative && spelling.zeroSign then "-" else "") ++
        (if spelling.pointed then "0.0" else "0")
  | .finite negative significand exponent =>
      let d := shortest significand exponent
      let digits :=
        if spelling.lowest < d.point && d.point ≤ spelling.highest then
          d.positional spelling.pointed
        else d.scientific spelling.plusSign
      (if negative then "-" else "") ++ String.ofList digits

end LiveTemplate.Number
