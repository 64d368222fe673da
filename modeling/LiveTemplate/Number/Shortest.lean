import LiveTemplate.Number

/-!
# Shortest decimals

The decimals that read back as a given binary64 number fill a window around it. Of
those with the fewest digits the nearest is chosen, and of two equally near the
larger. All comparisons are exact, over one common denominator.
-/
namespace LiveTemplate.Number

/-- A positive decimal `0.d₁d₂… · 10 ^ point`, without trailing zeros. -/
structure Decimal where
  digits : List Char
  point : Int
deriving DecidableEq, Repr

/-- The reals that round to a number, as numerators over `den`. Its ends belong to
it when the significand is even. -/
structure Window where
  low : Nat
  mid : Nat
  high : Nat
  den : Nat
  closed : Bool

namespace Window

/-- Half a unit above; below, half a unit or, where the units halve, a quarter. -/
def around (significand : Nat) (exponent : Int) : Window :=
  let unit := Nat.pow 2 exponent.toNat
  let below := if significand = significandBound / 2 && exponent ≠ minExponent then 1 else 2
  { low := (4 * significand - below) * unit
    mid := 4 * significand * unit
    high := (4 * significand + 2) * unit
    den := 4 * Nat.pow 2 (-exponent).toNat
    closed := significand % 2 == 0 }

/-- Whether `c · 10 ^ k` lies in the window. -/
def holds (w : Window) (k : Int) (c : Nat) : Bool :=
  let x := c * Nat.pow 10 k.toNat * w.den
  let low := w.low * Nat.pow 10 (-k).toNat
  let high := w.high * Nat.pow 10 (-k).toNat
  if w.closed then low ≤ x && x ≤ high else low < x && x < high

/-- The multiple of `10 ^ k` in the window that is next to its middle, if any. -/
def onGrid? (w : Window) (k : Int) : Option Nat :=
  let num := w.mid * Nat.pow 10 (-k).toNat
  let den := w.den * Nat.pow 10 k.toNat
  let floor := num / den
  match w.holds k floor, w.holds k (floor + 1) with
  | true, true => some (if den ≤ 2 * (num % den) then floor + 1 else floor)
  | true, false => some floor
  | false, true => some (floor + 1)
  | false, false => none

/-- Whether the middle is less than `10 ^ k`. -/
def midBelow (w : Window) (k : Int) : Bool :=
  w.mid * Nat.pow 10 (-k).toNat < Nat.pow 10 k.toNat * w.den

/-- The number of digits before the point; for a number below one, less the zeros
behind the point. This is the least `k` with the middle below `10 ^ k`. The binary
logarithm of the middle, known but for one, leaves three candidates. -/
def magnitude (w : Window) : Int :=
  let twos : Int := Nat.log2 w.mid - Nat.log2 w.den - 1
  let least := twos * 30103 / 100000
  if w.midBelow least then least
  else if w.midBelow (least + 1) then least + 1
  else least + 2

end Window

/-- Digits of `c` in front of `k` zeros, with the trailing zeros moved there. -/
def Decimal.ofMultiple (c : Nat) (k : Int) : Decimal :=
  let digits := Nat.toDigits 10 c
  ⟨(digits.reverse.dropWhile (· = '0')).reverse, digits.length + k⟩

/-- The shortest decimal of a positive number. Seventeen digits always suffice. -/
def shortest (significand : Nat) (exponent : Int) : Decimal :=
  let w := Window.around significand exponent
  let found := (List.range 17).findSome? fun (i : Nat) =>
    let k : Int := w.magnitude - (i + 1)
    (w.onGrid? k).map (Decimal.ofMultiple · k)
  found.getD ⟨[], 0⟩

end LiveTemplate.Number
