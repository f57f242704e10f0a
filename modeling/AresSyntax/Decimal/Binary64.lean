import AresSyntax.Decimal.Fraction

/-!
Double precision numbers by their 64 bits: one for the sign, eleven for the exponent, fifty-two
for the fraction.

Main definitions:
* `Binary64.ofFraction`: the double nearest to a fraction;
* `Binary64.magnitude`: the value without its sign, as a fraction;
* `Binary64.ofDecimal`: the double nearest to a decimal.
-/
namespace AresSyntax

/-- A double precision number. -/
structure Binary64 where
  bits : UInt64
  deriving DecidableEq, Repr

namespace Binary64

/-- The weight of the sign bit, two to the power of 63. -/
def signBit : Nat := 0x8000000000000000

/-- The weight of the lowest exponent bit, two to the power of 52. -/
def exponentBit : Nat := 0x10000000000000

/-- The bits of positive infinity; greater ones with the sign clear are not numbers. -/
def infinityBits : Nat := 0x7ff * exponentBit

def ofParts (negative : Bool) (magnitude : Nat) : Binary64 :=
  ⟨UInt64.ofNat (magnitude + if negative then signBit else 0)⟩

def isNegative (x : Binary64) : Bool := signBit ≤ x.bits.toNat

/-- The bits below the sign. -/
def magnitudeBits (x : Binary64) : Nat := x.bits.toNat % signBit

def isInfinite (x : Binary64) : Bool := x.magnitudeBits == infinityBits

def isNaN (x : Binary64) : Bool := infinityBits < x.magnitudeBits

/-- A quiet NaN. -/
def nan : Binary64 := ⟨0x7ff8000000000000⟩

/-- The bits nearest to `x`, halves to the even neighbour. The last place has weight `2 ^ q`, where
`q` leaves 53 bits but is never below -1074. A significand that rounds up to the next power of two
carries into the exponent, and whatever reaches the bits of infinity is infinite. -/
def nearestBits (x : Fraction) : Nat :=
  if x.num = 0 then 0
  else
    let q := max (x.exponent 2 - 52) (-1074)
    min infinityBits ((q + 1074).toNat * exponentBit + (x.divPow 2 q).nearest)

def ofFraction (negative : Bool) (x : Fraction) : Binary64 :=
  ofParts negative (nearestBits x)

/-- The absolute value of a finite double. -/
def magnitude (x : Binary64) : Fraction :=
  let biased := x.magnitudeBits / exponentBit
  let significand := x.magnitudeBits % exponentBit + if biased = 0 then 0 else exponentBit
  (Fraction.ofNat significand).divPow 2 (1075 - (max biased 1 : Nat))

/-- The double nearest to `digits * 10 ^ place`. Outside of the powers from -400 to 400 the answer
is zero or infinity, and no large power is formed. -/
def ofDecimal (negative : Bool) (digits : Nat) (place : Int) : Binary64 :=
  let scale := (Nat.toDigits 10 digits).length + place
  if digits = 0 ∨ scale < -400 then ofParts negative 0
  else if 400 < scale then ofParts negative infinityBits
  else ofFraction negative ((Fraction.ofNat digits).divPow 10 (-place))

end Binary64
end AresSyntax
