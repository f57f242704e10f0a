/-!
Nonnegative fractions, the exact arithmetic behind number texts.

Main definitions:
* `Fraction.divPow`: division by a power with any whole exponent;
* `Fraction.nearest`: rounding to a whole number, halves to even;
* `Fraction.exponent`: the exponent of the leading digit in a base.
-/
namespace AresSyntax

/-- The number `num / den`; `den` is positive in every fraction made here. -/
structure Fraction where
  num : Nat
  den : Nat
  deriving DecidableEq, Repr

namespace Fraction

def ofNat (n : Nat) : Fraction := ⟨n, 1⟩

/-- The fraction divided by `base ^ e`. -/
def divPow (x : Fraction) (base : Nat) (e : Int) : Fraction :=
  if 0 ≤ e then ⟨x.num, x.den * Nat.pow base e.toNat⟩
  else ⟨x.num * Nat.pow base (-e).toNat, x.den⟩

/-- The greatest whole number not above the fraction. -/
def floor (x : Fraction) : Nat := x.num / x.den

/-- The nearest whole number; of two equally near ones the even one. -/
def nearest (x : Fraction) : Nat :=
  let twice := 2 * (x.num % x.den)
  if twice < x.den then x.floor
  else if x.den < twice then x.floor + 1
  else x.floor + x.floor % 2

/-- The greatest `e` with `base ^ e ≤ x`, for a positive `x`. The digit counts of the two parts
leave a choice of two. -/
def exponent (x : Fraction) (base : Nat) : Int :=
  let guess : Int := (Nat.toDigits base x.num).length - (Nat.toDigits base x.den).length
  if 0 < (x.divPow base guess).floor then guess else guess - 1

end Fraction
end AresSyntax
