/-!
# Numbers

Binary64 numbers as data: not a number, the two infinities, and the finite numbers
±significand·2^exponent. In a finite number the significand is below 2^53 and the
exponent lies between -1074 and 971; the significand is at least 2^52 unless the
exponent is -1074. So a finite number has one form, and zero has two, by its sign.
-/
namespace LiveTemplate

inductive Number where
  | nan
  | infinity (negative : Bool)
  | finite (negative : Bool) (significand : Nat) (exponent : Int)
deriving DecidableEq, Repr

namespace Number

def minExponent : Int := -1074

def maxExponent : Int := 971

/-- One more than the largest significand. -/
def significandBound : Nat := Nat.pow 2 53

def zero (negative : Bool) : Number := .finite negative 0 minExponent

def isZero : Number → Bool
  | .finite _ significand _ => significand == 0
  | _ => false

/-- Equality of numbers as quantities: not a number equals nothing, and the zeros
are equal. -/
def same (a b : Number) : Bool :=
  (a.isZero && b.isZero) || (a != .nan && a == b)

/-- Every number but the zeros and not-a-number. -/
def isTruthy (n : Number) : Bool := !n.isZero && n != .nan

theorem same_comm (a b : Number) : a.same b = b.same a := by
  simp only [same]
  by_cases h : a = b
  · subst h; rfl
  · rw [beq_eq_false_iff_ne.2 h, beq_eq_false_iff_ne.2 (Ne.symm h)]
    simp [Bool.and_comm]

theorem same_self (n : Number) : n.same n = true ↔ n ≠ .nan := by
  cases n <;> simp [same, isZero]

end Number

end LiveTemplate
