import LiveTemplate.Number.Rounding

/-!
# Numerals

A numeral is an optional sign and then either decimal digits with an optional point
and an optional power of ten, or one of the words inf, infinity and nan in any case.
There is at least one digit before or after the point.
-/
namespace LiveTemplate.Number

/-- The value of a run of decimal digits. -/
def digitsValue (ds : List Char) : Nat :=
  ds.foldl (fun n d => 10 * n + (d.toNat - '0'.toNat)) 0

def splitSign : List Char → Bool × List Char
  | '-' :: rest => (true, rest)
  | '+' :: rest => (false, rest)
  | rest => (false, rest)

/-- A power of ten, or nothing at all, up to the end of the numeral. -/
def readExponent? : List Char → Option Int
  | [] => some 0
  | e :: rest =>
      let (negative, digits) := splitSign rest
      if e.toLower = 'e' && digits ≠ [] && digits.all Char.isDigit then
        some (if negative then -digitsValue digits else digitsValue digits)
      else none

def readWord? (negative : Bool) (cs : List Char) : Option Number :=
  match String.ofList (cs.map Char.toLower) with
  | "inf" | "infinity" => some (.infinity negative)
  | "nan" => some .nan
  | _ => none

def readDigits? (negative : Bool) (cs : List Char) : Option Number := do
  let whole := cs.takeWhile Char.isDigit
  let (fraction, rest) :=
    match cs.dropWhile Char.isDigit with
    | '.' :: rest => (rest.takeWhile Char.isDigit, rest.dropWhile Char.isDigit)
    | rest => ([], rest)
  if whole ++ fraction = [] then none
  else
    let exponent ← readExponent? rest
    pure (ofDecimal negative (digitsValue (whole ++ fraction)) (exponent - fraction.length))

/-- The number that a numeral denotes, rounded to nearest. -/
def ofNumeral? (s : String) : Option Number :=
  let (negative, rest) := splitSign s.toList
  readWord? negative rest <|> readDigits? negative rest

end LiveTemplate.Number
